import Rfofs.Foundation.BoundedFifo
import Rfofs.Foundation.MachineInt
import Rfofs.Foundation.Transition

namespace Rfofs
namespace Control

open Foundation

/-!
# The ring in shared memory

`tryPush` and `tryPop` are sequences of four accesses to shared memory, and other
parties run between any two of them.  A step of the system is one access; what a
call keeps in registers is in its program counter.  Acquire and release accesses
are read as steps of one interleaving.

The system has any number of producers, because nothing in the code prevents
several threads from calling `tryPush`.  The invariant is proved for runs that
satisfy `ExclusiveWrite`: a call writes its slot only while the tail it loaded is
still the newest and no other call has a written slot that is not published.  A
lone producer always satisfies it.

`pushed` and `popped` are the observer's record of the calls that returned `Ok`
and `Some`, and `seen` is the observer's stamp on a loaded tail.  No step reads
them.
-/

/-- A slot count that a `usize` holds and that divides the range of the counters.  Both are
needed: the counters wrap, and the slot of a counter is its remainder. -/
structure RingCapacity where
  cap : Nat
  divides : cap ∣ 2 ^ 64
  fits : cap < 2 ^ 64

/-- The two capacities that the control block instantiates. -/
def fofCap : RingCapacity := ⟨4096, by decide, by decide⟩

def killCap : RingCapacity := ⟨256, by decide, by decide⟩

namespace RingCapacity

theorem pos (c : RingCapacity) : 0 < c.cap :=
  Nat.pos_of_dvd_of_pos c.divides (by decide)

/-- The slot of a counter. -/
def index (c : RingCapacity) (counter : Nat) : Fin c.cap :=
  ⟨counter % c.cap, Nat.mod_lt _ c.pos⟩

/-- A wrapped counter has the slot of the counter. -/
theorem index_mod (c : RingCapacity) (counter : Nat) :
    c.index (counter % 2 ^ 64) = c.index counter :=
  Fin.ext (mod_mod_of_capacity_dvd c.divides counter)

/-- Counters less than one round apart have different slots.  A producer within a round of the
consumer never writes its slot. -/
theorem index_ne (c : RingCapacity) {low high : Nat} (ordered : low < high)
    (near : high < low + c.cap) : c.index low ≠ c.index high := by
  intro same
  have equal := (mod_eq_mod_iff_of_near (le_of_lt ordered) (by omega)).mp (Fin.ext_iff.mp same)
  omega

end RingCapacity

/-- Program counter of a producer, with the registers of its call.  The order of the accesses
is the one of `try_push`. -/
inductive PushPc (T : Type*) where
  | idle
  | loadedTail (item : T) (tail seen : Nat)
  | checked (item : T) (tail seen : Nat)
  | wrote (item : T) (tail seen : Nat)

/-- Program counter of the consumer.  The order of the accesses is the one of `try_pop`. -/
inductive PopPc (T : Type*) where
  | idle
  | loadedHead (head : Nat)
  | checked (head : Nat)
  | read (head : Nat) (item : T)

/-- The shared words, the parties, and beside them the items that were pushed and popped so
far. -/
structure RingState (c : RingCapacity) (ι T : Type*) where
  head : Nat
  tail : Nat
  slots : Fin c.cap → T
  producers : ι → PushPc T
  consumer : PopPc T
  pushed : List T
  popped : List T

/-- One access to shared memory, by one party. -/
inductive RingAccess (ι T : Type*) where
  | pushLoadTail (producer : ι) (item : T)
  | pushLoadHead (producer : ι)
  | pushWrite (producer : ι)
  | pushStore (producer : ι)
  | popLoadHead
  | popLoadTail
  | popRead
  | popStore

/-- What a call returns, at the access with which it ends. -/
inductive RingAnswer (T : Type*) where
  | pushOk (item : T)
  | pushErr (item : T)
  | popSome (item : T)
  | popNone

namespace RingState

variable {c : RingCapacity} {ι T : Type*}

/-- One access, if the party is at the program counter of this access.  Everything else of the
call is local to the party. -/
def access [DecidableEq ι] (s : RingState c ι T) :
    RingAccess ι T → Option (RingState c ι T × Option (RingAnswer T))
  | .pushLoadTail i item =>
      match s.producers i with
      | .idle =>
          some ({ s with producers :=
            Function.update s.producers i (.loadedTail item s.tail s.pushed.length) }, none)
      | _ => none
  | .pushLoadHead i =>
      match s.producers i with
      | .loadedTail item tail seen =>
          if c.cap ≤ wrappingSub 64 tail s.head then
            some ({ s with producers := Function.update s.producers i .idle },
              some (.pushErr item))
          else
            some ({ s with producers :=
              Function.update s.producers i (.checked item tail seen) }, none)
      | _ => none
  | .pushWrite i =>
      match s.producers i with
      | .checked item tail seen =>
          some ({ s with
            slots := Function.update s.slots (c.index tail) item
            producers := Function.update s.producers i (.wrote item tail seen) }, none)
      | _ => none
  | .pushStore i =>
      match s.producers i with
      | .wrote item tail _ =>
          some ({ s with
            tail := wrappingAdd 64 tail 1
            producers := Function.update s.producers i .idle
            pushed := s.pushed ++ [item] }, some (.pushOk item))
      | _ => none
  | .popLoadHead =>
      match s.consumer with
      | .idle => some ({ s with consumer := .loadedHead s.head }, none)
      | _ => none
  | .popLoadTail =>
      match s.consumer with
      | .loadedHead head =>
          if head = s.tail then
            some ({ s with consumer := .idle }, some .popNone)
          else
            some ({ s with consumer := .checked head }, none)
      | _ => none
  | .popRead =>
      match s.consumer with
      | .checked head =>
          some ({ s with consumer := .read head (s.slots (c.index head)) }, none)
      | _ => none
  | .popStore =>
      match s.consumer with
      | .read head item =>
          some ({ s with
            head := wrappingAdd 64 head 1
            consumer := .idle
            popped := s.popped ++ [item] }, some (.popSome item))
      | _ => none

/-- What one access does, with the program counter and the test that allow it.  Later proofs
distinguish these cases. -/
inductive Does [DecidableEq ι] (s : RingState c ι T) :
    RingAccess ι T → RingState c ι T → Option (RingAnswer T) → Prop
  | loadTail (i : ι) (item : T) (at_pc : s.producers i = .idle) :
      Does s (.pushLoadTail i item)
        { s with
          producers := Function.update s.producers i (.loadedTail item s.tail s.pushed.length) }
        none
  | refuse (i : ι) (item : T) (tail seen : Nat) (at_pc : s.producers i = .loadedTail item tail seen)
      (full : c.cap ≤ wrappingSub 64 tail s.head) :
      Does s (.pushLoadHead i) { s with producers := Function.update s.producers i .idle }
        (some (.pushErr item))
  | check (i : ι) (item : T) (tail seen : Nat) (at_pc : s.producers i = .loadedTail item tail seen)
      (room : ¬c.cap ≤ wrappingSub 64 tail s.head) :
      Does s (.pushLoadHead i)
        { s with producers := Function.update s.producers i (.checked item tail seen) } none
  | write (i : ι) (item : T) (tail seen : Nat) (at_pc : s.producers i = .checked item tail seen) :
      Does s (.pushWrite i)
        { s with
          slots := Function.update s.slots (c.index tail) item
          producers := Function.update s.producers i (.wrote item tail seen) } none
  | publish (i : ι) (item : T) (tail seen : Nat) (at_pc : s.producers i = .wrote item tail seen) :
      Does s (.pushStore i)
        { s with
          tail := wrappingAdd 64 tail 1
          producers := Function.update s.producers i .idle
          pushed := s.pushed ++ [item] } (some (.pushOk item))
  | loadHead (at_pc : s.consumer = .idle) :
      Does s .popLoadHead { s with consumer := .loadedHead s.head } none
  | miss (head : Nat) (at_pc : s.consumer = .loadedHead head) (same : head = s.tail) :
      Does s .popLoadTail { s with consumer := .idle } (some .popNone)
  | find (head : Nat) (at_pc : s.consumer = .loadedHead head) (different : head ≠ s.tail) :
      Does s .popLoadTail { s with consumer := .checked head } none
  | read (head : Nat) (at_pc : s.consumer = .checked head) :
      Does s .popRead { s with consumer := .read head (s.slots (c.index head)) } none
  | release (head : Nat) (item : T) (at_pc : s.consumer = .read head item) :
      Does s .popStore
        { s with
          head := wrappingAdd 64 head 1
          consumer := .idle
          popped := s.popped ++ [item] } (some (.popSome item))

/-- An access that is taken does one of these. -/
theorem does_of_access [DecidableEq ι] {s next : RingState c ι T} {label : RingAccess ι T}
    {answer : Option (RingAnswer T)} (taken : s.access label = some (next, answer)) :
    s.Does label next answer := by
  cases label with
  | pushLoadTail i item =>
      cases at_pc : s.producers i with
      | idle =>
          simp only [access, at_pc] at taken
          cases taken
          exact .loadTail i item at_pc
      | _ =>
          simp only [access, at_pc] at taken
          cases taken
  | pushLoadHead i =>
      cases at_pc : s.producers i with
      | loadedTail item tail seen =>
          simp only [access, at_pc] at taken
          by_cases full : c.cap ≤ wrappingSub 64 tail s.head
          · rw [if_pos full] at taken
            cases taken
            exact .refuse i item tail seen at_pc full
          · rw [if_neg full] at taken
            cases taken
            exact .check i item tail seen at_pc full
      | _ =>
          simp only [access, at_pc] at taken
          cases taken
  | pushWrite i =>
      cases at_pc : s.producers i with
      | checked item tail seen =>
          simp only [access, at_pc] at taken
          cases taken
          exact .write i item tail seen at_pc
      | _ =>
          simp only [access, at_pc] at taken
          cases taken
  | pushStore i =>
      cases at_pc : s.producers i with
      | wrote item tail seen =>
          simp only [access, at_pc] at taken
          cases taken
          exact .publish i item tail seen at_pc
      | _ =>
          simp only [access, at_pc] at taken
          cases taken
  | popLoadHead =>
      cases at_pc : s.consumer with
      | idle =>
          simp only [access, at_pc] at taken
          cases taken
          exact .loadHead at_pc
      | _ =>
          simp only [access, at_pc] at taken
          cases taken
  | popLoadTail =>
      cases at_pc : s.consumer with
      | loadedHead head =>
          simp only [access, at_pc] at taken
          by_cases same : head = s.tail
          · rw [if_pos same] at taken
            cases taken
            exact .miss head at_pc same
          · rw [if_neg same] at taken
            cases taken
            exact .find head at_pc same
      | _ =>
          simp only [access, at_pc] at taken
          cases taken
  | popRead =>
      cases at_pc : s.consumer with
      | checked head =>
          simp only [access, at_pc] at taken
          cases taken
          exact .read head at_pc
      | _ =>
          simp only [access, at_pc] at taken
          cases taken
  | popStore =>
      cases at_pc : s.consumer with
      | read head item =>
          simp only [access, at_pc] at taken
          cases taken
          exact .release head item at_pc
      | _ =>
          simp only [access, at_pc] at taken
          cases taken

/-- What a producer does next; an idle one calls `try_push` with the item. -/
def pushNext (s : RingState c ι T) (i : ι) (item : T) : RingAccess ι T :=
  match s.producers i with
  | .idle => .pushLoadTail i item
  | .loadedTail _ _ _ => .pushLoadHead i
  | .checked _ _ _ => .pushWrite i
  | .wrote _ _ _ => .pushStore i

/-- What the consumer does next; an idle one calls `try_pop`. -/
def popNext (s : RingState c ι T) : RingAccess ι T :=
  match s.consumer with
  | .idle => .popLoadHead
  | .loadedHead _ => .popLoadTail
  | .checked _ => .popRead
  | .read _ _ => .popStore

/-- No producer ever waits: at each program counter its next access is enabled.  A call
therefore ends within four accesses of its own thread. -/
theorem access_pushNext [DecidableEq ι] (s : RingState c ι T) (i : ι) (item : T) :
    (s.access (s.pushNext i item)).isSome := by
  cases at_pc : s.producers i with
  | loadedTail held tail seen =>
      simp only [pushNext, access, at_pc]
      split <;> rfl
  | idle | checked | wrote => simp only [pushNext, access, at_pc, Option.isSome_some]

/-- The consumer never waits either. -/
theorem access_popNext [DecidableEq ι] (s : RingState c ι T) : (s.access s.popNext).isSome := by
  cases at_pc : s.consumer with
  | loadedHead head =>
      simp only [popNext, access, at_pc]
      split <;> rfl
  | idle | checked | read => simp only [popNext, access, at_pc, Option.isSome_some]

/-- The call is between its slot write and its tail store. -/
def Unpublished (s : RingState c ι T) (i : ι) : Prop :=
  ∃ item tail seen, s.producers i = .wrote item tail seen

/-- A slot is written only by a call whose tail is the newest, while no other call
has written a slot without publishing it. -/
def ExclusiveWrite (s : RingState c ι T) : RingAccess ι T → Prop
  | .pushWrite i =>
      (∀ item tail seen, s.producers i = .checked item tail seen → seen = s.pushed.length) ∧
        ∀ j, j ≠ i → ¬ s.Unpublished j
  | _ => True

end RingState

/-- One access, without its answer. -/
def ringStep {c : RingCapacity} {ι T : Type*} [DecidableEq ι] (s : RingState c ι T)
    (label : RingAccess ι T) : Option (RingState c ι T) :=
  (s.access label).map Prod.fst

/-- The ring whose counters both start at `base`, with arbitrary slots. -/
def ringSystem (c : RingCapacity) (ι T : Type*) [DecidableEq ι] (base : Nat) :
    System (RingState c ι T) (RingAccess ι T) :=
  .ofStep (fun s => base < 2 ^ 64 ∧ s.head = base ∧ s.tail = base ∧
    (∀ i, s.producers i = .idle) ∧ s.consumer = .idle ∧ s.pushed = [] ∧ s.popped = []) ringStep

/-- All parties idle, both counters at `base`. -/
def ringStart (c : RingCapacity) (ι : Type*) {T : Type*} (base : Nat) (fill : T) :
    RingState c ι T where
  head := base
  tail := base
  slots := fun _ => fill
  producers := fun _ => .idle
  consumer := .idle
  pushed := []
  popped := []

theorem ringStart_reachable (c : RingCapacity) (ι : Type*) {T : Type*} [DecidableEq ι]
    {base : Nat} (word : base < 2 ^ 64) (fill : T) :
    (ringSystem c ι T base).Reachable (ringStart c ι base fill) :=
  .init ⟨word, rfl, rfl, fun _ => rfl, rfl, rfl, rfl⟩

/-! ## The invariant -/

section Invariant

variable {c : RingCapacity} {ι T : Type*} {base : Nat}

/-- A loaded tail is the tail unless it is stale, and a check that is not stale
still holds. -/
def PushPc.Facts (base : Nat) (s : RingState c ι T) : PushPc T → Prop
  | .idle => True
  | .loadedTail _ tail seen =>
      seen ≤ s.pushed.length ∧ (seen = s.pushed.length → tail = s.tail)
  | .checked _ tail seen =>
      seen ≤ s.pushed.length ∧ (seen = s.pushed.length →
        tail = s.tail ∧ s.pushed.length < s.popped.length + c.cap)
  | .wrote item tail _ =>
      tail = s.tail ∧ s.pushed.length < s.popped.length + c.cap ∧
        s.slots (c.index (base + s.pushed.length)) = item

/-- The consumer alone moves the head, and what it found it still finds. -/
def PopPc.Facts (s : RingState c ι T) : PopPc T → Prop
  | .idle => True
  | .loadedHead head => head = s.head
  | .checked head => head = s.head ∧ s.popped.length < s.pushed.length
  | .read head item => head = s.head ∧ s.pushed[s.popped.length]? = some item

/-- The counters are the lengths of the two records, and the slots between them
hold the pushed items that have not been popped. -/
structure RingInvariant (base : Nat) (s : RingState c ι T) : Prop where
  head : s.head = (base + s.popped.length) % 2 ^ 64
  tail : s.tail = (base + s.pushed.length) % 2 ^ 64
  delivered : s.popped <+: s.pushed
  bounded : s.pushed.length ≤ s.popped.length + c.cap
  content : ∀ k, s.popped.length ≤ k → k < s.pushed.length →
    s.pushed[k]? = some (s.slots (c.index (base + k)))
  producers : ∀ i, (s.producers i).Facts base s
  single : ∀ i j, s.Unpublished i → s.Unpublished j → i = j
  consumer : s.consumer.Facts s

namespace RingInvariant

variable {s : RingState c ι T}

theorem ordered (inv : RingInvariant base s) : s.popped.length ≤ s.pushed.length :=
  inv.delivered.length_le

/-- The difference of the counters is the number of items in the ring.  It is right after a
wrap, since the number is below the range. -/
theorem difference (inv : RingInvariant base s) :
    wrappingSub 64 s.tail s.head = s.pushed.length - s.popped.length := by
  have ordered := inv.ordered
  have bounded := inv.bounded
  have fits := c.fits
  rw [inv.head, inv.tail, wrappingSub_mod_of_lt (by omega) (by omega)]
  omega

/-- The counters agree exactly when the ring is empty.  Those of a full ring differ, since its
capacity is below their range. -/
theorem head_eq_tail_iff (inv : RingInvariant base s) :
    s.head = s.tail ↔ s.popped.length = s.pushed.length := by
  have ordered := inv.ordered
  have bounded := inv.bounded
  have fits := c.fits
  rw [inv.head, inv.tail, mod_eq_mod_iff_of_near (by omega) (by omega)]
  omega

theorem tail_index (inv : RingInvariant base s) :
    c.index s.tail = c.index (base + s.pushed.length) := by
  rw [inv.tail, c.index_mod]

theorem head_index (inv : RingInvariant base s) :
    c.index s.head = c.index (base + s.popped.length) := by
  rw [inv.head, c.index_mod]

theorem moveConsumer (inv : RingInvariant base s) {pc : PopPc T} (facts : pc.Facts s) :
    RingInvariant base { s with consumer := pc } :=
  ⟨inv.head, inv.tail, inv.delivered, inv.bounded, inv.content, inv.producers, inv.single, facts⟩

theorem popStore (inv : RingInvariant base s) {head : Nat} {item : T}
    (at_pc : s.consumer = .read head item) :
    RingInvariant base { s with
      head := wrappingAdd 64 head 1
      consumer := .idle
      popped := s.popped ++ [item] } := by
  have waiting := inv.consumer
  rw [at_pc] at waiting
  rcases waiting with ⟨same, next⟩
  rcases List.getElem?_eq_some_iff.mp next with ⟨inside, equal⟩
  have longer : (s.popped ++ [item]).length = s.popped.length + 1 := by simp
  refine ⟨?_, inv.tail, ?_, ?_, ?_, ?_, inv.single, trivial⟩
  · change wrappingAdd 64 head 1 = (base + (s.popped ++ [item]).length) % 2 ^ 64
    rw [same, inv.head, wrappingAdd_mod, longer, Nat.add_assoc]
  · change s.popped ++ [item] <+: s.pushed
    rcases inv.delivered with ⟨rest, whole⟩
    cases rest with
    | nil =>
        rw [List.append_nil] at whole
        rw [whole] at inside
        exact absurd inside (Nat.lt_irrefl _)
    | cons first rest =>
        refine ⟨rest, ?_⟩
        have found : s.pushed[s.popped.length]? = some first := by
          rw [← whole]
          simp
        rw [next] at found
        cases found
        rw [List.append_assoc]
        exact whole
  · change s.pushed.length ≤ (s.popped ++ [item]).length + c.cap
    have bounded := inv.bounded
    omega
  · intro k unpopped published
    change (s.popped ++ [item]).length ≤ k at unpopped
    exact inv.content k (by omega) published
  · intro j
    have others := inv.producers j
    change PushPc.Facts base _ (s.producers j)
    cases pc : s.producers j with
    | idle => trivial
    | loadedTail item' tail' seen' =>
        rw [pc] at others
        exact others
    | checked item' tail' seen' =>
        rw [pc] at others
        refine ⟨others.1, fun newest => ⟨(others.2 newest).1, ?_⟩⟩
        have room := (others.2 newest).2
        change s.pushed.length < (s.popped ++ [item]).length + c.cap
        omega
    | wrote item' tail' seen' =>
        rw [pc] at others
        refine ⟨others.1, ?_, others.2.2⟩
        have room := others.2.1
        change s.pushed.length < (s.popped ++ [item]).length + c.cap
        omega

variable [DecidableEq ι]

theorem start (initial : (ringSystem c ι T base).init s) : RingInvariant base s := by
  rcases initial with ⟨word, head, tail, idle, waiting, pushed, popped⟩
  refine ⟨?_, ?_, ?_, ?_, ?_, ?_, ?_, ?_⟩
  · rw [head, popped, List.length_nil, Nat.add_zero, Nat.mod_eq_of_lt word]
  · rw [tail, pushed, List.length_nil, Nat.add_zero, Nat.mod_eq_of_lt word]
  · rw [popped]
    exact List.nil_prefix
  · rw [pushed]
    exact Nat.zero_le _
  · intro k _ below
    rw [pushed] at below
    exact absurd below (Nat.not_lt_zero k)
  · intro i
    rw [idle i]
    trivial
  · rintro i j ⟨_, _, _, wrote⟩ _
    rw [idle i] at wrote
    cases wrote
  · rw [waiting]
    trivial

/-- A producer that moves without writing or publishing changes its own facts
only. -/
theorem moveProducer (inv : RingInvariant base s) (i : ι) {pc : PushPc T}
    (facts : pc.Facts base s) (unwritten : ∀ item tail seen, pc ≠ .wrote item tail seen) :
    RingInvariant base { s with producers := Function.update s.producers i pc } where
  head := inv.head
  tail := inv.tail
  delivered := inv.delivered
  bounded := inv.bounded
  content := inv.content
  producers := by
    intro j
    by_cases same : j = i
    · subst same
      change PushPc.Facts base s (Function.update s.producers j pc j)
      rwa [Function.update_self]
    · change PushPc.Facts base s (Function.update s.producers i pc j)
      rw [Function.update_of_ne same]
      exact inv.producers j
  single := by
    have still : ∀ j, RingState.Unpublished
        { s with producers := Function.update s.producers i pc } j → s.Unpublished j := by
      rintro j ⟨item, tail, seen, wrote⟩
      change Function.update s.producers i pc j = _ at wrote
      by_cases same : j = i
      · subst same
        rw [Function.update_self] at wrote
        exact absurd wrote (unwritten item tail seen)
      · rw [Function.update_of_ne same] at wrote
        exact ⟨item, tail, seen, wrote⟩
    exact fun j k first second => inv.single j k (still j first) (still k second)
  consumer := inv.consumer

theorem pushLoadTail (inv : RingInvariant base s) (i : ι) (item : T) :
    RingInvariant base { s with
      producers := Function.update s.producers i (.loadedTail item s.tail s.pushed.length) } :=
  inv.moveProducer i ⟨Nat.le_refl _, fun _ => rfl⟩ nofun

theorem pushLoadHead (inv : RingInvariant base s) {i : ι} {item : T} {tail seen : Nat}
    (at_pc : s.producers i = .loadedTail item tail seen)
    (room : ¬ c.cap ≤ wrappingSub 64 tail s.head) :
    RingInvariant base { s with
      producers := Function.update s.producers i (.checked item tail seen) } := by
  have facts := inv.producers i
  rw [at_pc] at facts
  refine inv.moveProducer i ⟨facts.1, ?_⟩ nofun
  intro fresh
  have same := facts.2 fresh
  have ordered := inv.ordered
  rw [same, inv.difference] at room
  exact ⟨same, by omega⟩

theorem pushWrite (inv : RingInvariant base s) {i : ι} {item : T} {tail seen : Nat}
    (at_pc : s.producers i = .checked item tail seen)
    (exclusive : s.ExclusiveWrite (.pushWrite i)) :
    RingInvariant base { s with
      slots := Function.update s.slots (c.index tail) item
      producers := Function.update s.producers i (.wrote item tail seen) } := by
  have facts := inv.producers i
  rw [at_pc] at facts
  rcases facts.2 (exclusive.1 item tail seen at_pc) with ⟨same, room⟩
  subst same
  rw [inv.tail_index]
  refine ⟨inv.head, inv.tail, inv.delivered, inv.bounded, ?_, ?_, ?_, inv.consumer⟩
  · intro k unpopped published
    change s.popped.length ≤ k at unpopped
    change k < s.pushed.length at published
    change s.pushed[k]? = some (Function.update s.slots _ item (c.index (base + k)))
    rw [Function.update_of_ne (c.index_ne (by omega) (by omega))]
    exact inv.content k unpopped published
  · intro j
    by_cases same : j = i
    · subst same
      change PushPc.Facts base _ (Function.update s.producers j _ j)
      rw [Function.update_self]
      exact ⟨rfl, room, Function.update_self _ _ _⟩
    · change PushPc.Facts base _ (Function.update s.producers i _ j)
      rw [Function.update_of_ne same]
      have others := inv.producers j
      cases pc : s.producers j with
      | idle => trivial
      | loadedTail item' tail' seen' =>
          rw [pc] at others
          exact others
      | checked item' tail' seen' =>
          rw [pc] at others
          exact others
      | wrote item' tail' seen' => exact absurd ⟨item', tail', seen', pc⟩ (exclusive.2 j same)
  · have only : ∀ j, RingState.Unpublished { s with
        slots := Function.update s.slots (c.index (base + s.pushed.length)) item
        producers := Function.update s.producers i (.wrote item s.tail seen) } j → j = i := by
      rintro j ⟨item', tail', seen', wrote⟩
      by_contra different
      change Function.update s.producers i _ j = _ at wrote
      rw [Function.update_of_ne different] at wrote
      exact exclusive.2 j different ⟨item', tail', seen', wrote⟩
    exact fun j k first second => (only j first).trans (only k second).symm

omit [DecidableEq ι] in
/-- When one item is published, a tail that another producer has loaded becomes stale. -/
theorem facts_of_published {next : RingState c ι T} {item : T} {pc : PushPc T}
    (facts : pc.Facts base s) (waiting : ∀ item tail seen, pc ≠ .wrote item tail seen)
    (pushed : next.pushed = s.pushed ++ [item]) : pc.Facts base next := by
  have longer : next.pushed.length = s.pushed.length + 1 := by
    rw [pushed, List.length_append, List.length_singleton]
  cases pc with
  | idle => trivial
  | loadedTail item' tail' seen' =>
      change seen' ≤ next.pushed.length ∧ (seen' = next.pushed.length → _)
      rw [longer]
      exact ⟨Nat.le_succ_of_le facts.1, fun newest => absurd facts.1 (by omega)⟩
  | checked item' tail' seen' =>
      change seen' ≤ next.pushed.length ∧ (seen' = next.pushed.length → _)
      rw [longer]
      exact ⟨Nat.le_succ_of_le facts.1, fun newest => absurd facts.1 (by omega)⟩
  | wrote item' tail' seen' => exact absurd rfl (waiting item' tail' seen')

omit [DecidableEq ι] in
/-- What the consumer found it still finds behind a longer list of items. -/
theorem popFacts_of_published {next : RingState c ι T} {item : T} {pc : PopPc T}
    (facts : pc.Facts s) (head : next.head = s.head) (popped : next.popped = s.popped)
    (pushed : next.pushed = s.pushed ++ [item]) : pc.Facts next := by
  cases pc with
  | idle => trivial
  | loadedHead head' => exact facts.trans head.symm
  | checked head' =>
      refine ⟨facts.1.trans head.symm, ?_⟩
      rw [popped, pushed, List.length_append]
      exact Nat.lt_add_right 1 facts.2
  | read head' item' =>
      refine ⟨facts.1.trans head.symm, ?_⟩
      rcases List.getElem?_eq_some_iff.mp facts.2 with ⟨inside, _⟩
      rw [popped, pushed, List.getElem?_append_left inside]
      exact facts.2

theorem pushStore (inv : RingInvariant base s) {i : ι} {item : T} {tail seen : Nat}
    (at_pc : s.producers i = .wrote item tail seen) :
    RingInvariant base { s with
      tail := wrappingAdd 64 tail 1
      producers := Function.update s.producers i .idle
      pushed := s.pushed ++ [item] } := by
  have facts := inv.producers i
  rw [at_pc] at facts
  rcases facts with ⟨same, room, written⟩
  have longer : (s.pushed ++ [item]).length = s.pushed.length + 1 := by simp
  refine ⟨inv.head, ?_, inv.delivered.trans (List.prefix_append _ _), ?_, ?_, ?_, ?_, ?_⟩
  · change wrappingAdd 64 tail 1 = (base + (s.pushed ++ [item]).length) % 2 ^ 64
    rw [same, inv.tail, wrappingAdd_mod, longer, Nat.add_assoc]
  · change (s.pushed ++ [item]).length ≤ _
    rw [longer]
    exact room
  · intro k unpopped published
    change k < (s.pushed ++ [item]).length at published
    change (s.pushed ++ [item])[k]? = _
    rw [longer] at published
    by_cases old : k < s.pushed.length
    · rw [List.getElem?_append_left old]
      exact inv.content k unpopped old
    · have last : k = s.pushed.length := by omega
      rw [last, List.getElem?_concat_length]
      exact congrArg some written.symm
  · intro j
    by_cases same : j = i
    · subst same
      change PushPc.Facts base _ (Function.update s.producers j _ j)
      rw [Function.update_self]
      trivial
    · change PushPc.Facts base _ (Function.update s.producers i _ j)
      rw [Function.update_of_ne same]
      refine facts_of_published (inv.producers j) ?_ rfl
      intro item' tail' seen' pc
      exact same (inv.single j i ⟨_, _, _, pc⟩ ⟨_, _, _, at_pc⟩)
  · have none_left : ∀ j, ¬ RingState.Unpublished { s with
        tail := wrappingAdd 64 tail 1
        producers := Function.update s.producers i .idle
        pushed := s.pushed ++ [item] } j := by
      rintro j ⟨item', tail', seen', wrote⟩
      change Function.update s.producers i .idle j = _ at wrote
      by_cases same : j = i
      · subst same
        rw [Function.update_self] at wrote
        cases wrote
      · rw [Function.update_of_ne same] at wrote
        exact same (inv.single j i ⟨_, _, _, wrote⟩ ⟨_, _, _, at_pc⟩)
    exact fun j k first _ => absurd first (none_left j)
  · exact popFacts_of_published inv.consumer rfl rfl rfl

/-- What one access preserves.  The accesses are those of any number of producers, under the
discipline of exclusive writes. -/
theorem access (inv : RingInvariant base s) {label : RingAccess ι T}
    (exclusive : s.ExclusiveWrite label) {next : RingState c ι T} {answer : Option (RingAnswer T)}
    (taken : s.access label = some (next, answer)) : RingInvariant base next := by
  have facts := inv.consumer
  cases RingState.does_of_access taken with
  | loadTail i item _ => exact inv.pushLoadTail i item
  | refuse i _ _ _ _ _ => exact inv.moveProducer i trivial nofun
  | check i item tail seen at_pc room => exact inv.pushLoadHead at_pc room
  | write i item tail seen at_pc => exact inv.pushWrite at_pc exclusive
  | publish i item tail seen at_pc => exact inv.pushStore at_pc
  | loadHead _ => exact inv.moveConsumer rfl
  | miss _ _ _ => exact inv.moveConsumer trivial
  | find head at_pc different =>
      rw [at_pc] at facts
      refine inv.moveConsumer ⟨facts, ?_⟩
      have notEmpty := mt inv.head_eq_tail_iff.mpr (facts ▸ different)
      have ordered := inv.ordered
      omega
  | read head at_pc =>
      rw [at_pc] at facts
      refine inv.moveConsumer ⟨facts.1, ?_⟩
      rw [facts.1, inv.head_index]
      exact inv.content _ (Nat.le_refl _) facts.2
  | release head item at_pc => exact inv.popStore at_pc

theorem reachable (reached : (ringSystem c ι T base).ReachableVia RingState.ExclusiveWrite s) :
    RingInvariant base s := by
  apply reached.invariant
  · intro s initial
    exact start initial
  · intro s label next inv exclusive stepped
    rcases Option.map_eq_some_iff.mp stepped with ⟨⟨_, answer⟩, taken, rfl⟩
    exact inv.access exclusive taken

end RingInvariant

end Invariant

/-! ## Linearization -/

section Linearization

variable {c : RingCapacity} {ι T : Type*} {base : Nat} {s : RingState c ι T}

/-- The items in the ring: published and not yet released. -/
def RingState.contents (s : RingState c ι T) : List T := s.pushed.drop s.popped.length

theorem RingState.contents_length (s : RingState c ι T) :
    s.contents.length = s.pushed.length - s.popped.length :=
  List.length_drop

theorem RingInvariant.popped_append_contents (inv : RingInvariant base s) :
    s.popped ++ s.contents = s.pushed := by
  rw [RingState.contents]
  conv_rhs => rw [← List.take_append_drop s.popped.length s.pushed]
  rw [← List.prefix_iff_eq_take.mp inv.delivered]

/-- The bounded buffer that a ring stands for.  The bound is part of its type. -/
def RingInvariant.fifo (inv : RingInvariant base s) : BoundedFifo T where
  capacity := c.cap
  items := s.contents
  bounded := by
    have bounded := inv.bounded
    rw [s.contents_length]
    omega

/-- What the bounded buffer does at the access at which a call returns.  At every
other access it does nothing. -/
def Linearizes (before after : BoundedFifo T) : Option (RingAnswer T) → Prop
  | none => after = before
  | some (.pushOk item) => before.push item = .ok after
  | some (.pushErr item) => before.push item = .error item ∧ after = before
  | some (.popSome item) => before.pop = some (item, after)
  | some .popNone => before.pop = none ∧ after = before

/-- No call works with a stale tail. -/
def RingState.NewestTails (s : RingState c ι T) : Prop :=
  ∀ i item tail seen,
    s.producers i = .loadedTail item tail seen ∨ s.producers i = .checked item tail seen →
      seen = s.pushed.length

variable [DecidableEq ι]

/-- Every call takes effect at one access, which lies inside the call.  A push does so with
its tail store, a pop with its head store. -/
theorem RingInvariant.linearizes (inv : RingInvariant base s) (newest : s.NewestTails)
    {label : RingAccess ι T} {next : RingState c ι T} {answer : Option (RingAnswer T)}
    (taken : s.access label = some (next, answer)) (nextInv : RingInvariant base next) :
    Linearizes inv.fifo nextInv.fifo answer := by
  have ordered := inv.ordered
  have bounded := inv.bounded
  have waiting := inv.consumer
  cases RingState.does_of_access taken with
  | loadTail | check | write | loadHead | find | read => rfl
  | refuse i item tail seen at_pc full =>
      have facts := inv.producers i
      rw [at_pc] at facts
      rw [facts.2 (newest i item tail seen (Or.inl at_pc)), inv.difference] at full
      refine ⟨BoundedFifo.push_eq_error ?_ item, rfl⟩
      change s.contents.length = c.cap
      rw [s.contents_length]
      omega
  | publish i item tail seen at_pc =>
      have facts := inv.producers i
      rw [at_pc] at facts
      refine BoundedFifo.push_eq_ok ?_ rfl ?_
      · change s.contents.length < c.cap
        have room := facts.2.1
        rw [s.contents_length]
        omega
      · change (s.pushed ++ [item]).drop s.popped.length = s.contents ++ [item]
        rw [List.drop_append_of_le_length ordered]
        rfl
  | miss head at_pc same =>
      rw [at_pc] at waiting
      refine ⟨BoundedFifo.pop_eq_none.mpr ?_, rfl⟩
      have empty := inv.head_eq_tail_iff.mp (waiting ▸ same)
      apply List.eq_nil_of_length_eq_zero
      change s.contents.length = 0
      rw [s.contents_length]
      omega
  | release head item at_pc =>
      rw [at_pc] at waiting
      refine BoundedFifo.pop_eq rfl ?_
      rcases List.getElem?_eq_some_iff.mp waiting.2 with ⟨inside, equal⟩
      change s.pushed.drop s.popped.length =
        item :: s.pushed.drop (s.popped ++ [item]).length
      rw [List.length_append, List.length_singleton, List.drop_eq_getElem_cons inside, equal]

end Linearization

/-! ## One producer -/

section OneProducer

variable {c : RingCapacity} {T : Type*} {base : Nat} {s : RingState c Unit T}

/-- A lone producer is never overtaken. -/
theorem newestTails_access (newest : s.NewestTails) {label : RingAccess Unit T}
    {next : RingState c Unit T} {answer : Option (RingAnswer T)}
    (taken : s.access label = some (next, answer)) : next.NewestTails := by
  have replaced : ∀ pc : PushPc T, Function.update s.producers () pc = fun _ => pc := by
    intro pc
    funext i
    exact Function.update_self () pc s.producers
  cases RingState.does_of_access taken with
  | loadTail i item _ =>
      rintro j item' tail' seen' later
      simp only [replaced] at later
      rcases later with later | later <;> cases later
      rfl
  | check i item tail seen at_pc _ =>
      rintro j item' tail' seen' later
      simp only [replaced] at later
      rcases later with later | later <;> cases later
      exact newest i item tail seen (Or.inl at_pc)
  | refuse | write | publish =>
      rintro j item' tail' seen' later
      simp only [replaced] at later
      rcases later with later | later <;> cases later
  | loadHead | miss | find | read | release => exact newest

theorem exclusiveWrite_of_newestTails (newest : s.NewestTails) (label : RingAccess Unit T) :
    s.ExclusiveWrite label := by
  cases label with
  | pushWrite i =>
      exact ⟨fun item tail seen at_pc => newest i item tail seen (Or.inr at_pc),
        fun j different => absurd rfl different⟩
  | _ => trivial

/-- Runs of one producer need no discipline. -/
theorem reachable_oneProducer (reached : (ringSystem c Unit T base).Reachable s) :
    RingInvariant base s ∧ s.NewestTails := by
  apply reached.invariant
  · intro s initial
    refine ⟨RingInvariant.start initial, ?_⟩
    intro i item tail seen at_pc
    rw [initial.2.2.2.1 i] at at_pc
    rcases at_pc with at_pc | at_pc <;> cases at_pc
  · rintro s label next ⟨inv, newest⟩ _ stepped
    rcases Option.map_eq_some_iff.mp stepped with ⟨⟨_, answer⟩, taken, rfl⟩
    exact ⟨inv.access (exclusiveWrite_of_newestTails newest label) taken,
      newestTails_access newest taken⟩

/-- A state of a linearizable bounded buffer: popped items are a prefix of pushed
ones, the counters differ by at most the capacity, the write of a slot avoids every
item that has not been popped, and such an item still stands in its slot.  A refusal
means a full buffer, a missing item an empty one, and each access acts on the buffer
as its answer says. -/
structure LinearizableRing (base : Nat) (s : RingState c Unit T) : Prop where
  delivered : s.popped <+: s.pushed
  difference : wrappingSub 64 s.tail s.head ≤ c.cap
  untouched : ∀ item tail seen, s.producers () = .checked item tail seen →
    ∀ k, s.popped.length ≤ k → k < s.pushed.length → c.index tail ≠ c.index (base + k)
  content : ∀ k, s.popped.length ≤ k → k < s.pushed.length →
    s.pushed[k]? = some (s.slots (c.index (base + k)))
  refused : ∀ label next item, s.access label = some (next, some (.pushErr item)) →
    s.contents.length = c.cap
  missing : ∀ label next, s.access label = some (next, some .popNone) → s.contents = []
  simulates : ∃ fifo : BoundedFifo T, fifo.capacity = c.cap ∧ fifo.items = s.contents ∧
    ∀ label next answer, s.access label = some (next, answer) →
      ∃ nextFifo : BoundedFifo T, nextFifo.capacity = c.cap ∧
        nextFifo.items = next.contents ∧ Linearizes fifo nextFifo answer

/-- One producer and one consumer, in every interleaving and from every start of the
counters, keep the ring a linearizable bounded buffer. -/
theorem ring_linearizable (c : RingCapacity) (T : Type*) (base : Nat) (s : RingState c Unit T)
    (reached : (ringSystem c Unit T base).Reachable s) : LinearizableRing base s := by
  rcases reachable_oneProducer reached with ⟨inv, newest⟩
  have nextInv : ∀ {label next answer}, s.access label = some (next, answer) →
      RingInvariant base next := fun taken =>
    inv.access (exclusiveWrite_of_newestTails newest _) taken
  have ordered := inv.ordered
  have bounded := inv.bounded
  refine ⟨inv.delivered, ?_, ?_, inv.content, ?_, ?_, inv.fifo, rfl, rfl, ?_⟩
  · rw [inv.difference]
    omega
  · intro item tail seen at_pc k unpopped published
    have facts := inv.producers ()
    rw [at_pc] at facts
    rcases facts.2 (newest () item tail seen (Or.inr at_pc)) with ⟨same, room⟩
    rw [same, inv.tail_index]
    exact (c.index_ne (by omega) (by omega)).symm
  · intro label next item taken
    have refused := (inv.linearizes newest taken (nextInv taken)).1
    rcases BoundedFifo.push_cases inv.fifo item with ⟨other, accepted, _⟩ | ⟨_, full⟩
    · rw [accepted] at refused
      cases refused
    · exact full
  · intro label next taken
    exact BoundedFifo.pop_eq_none.mp (inv.linearizes newest taken (nextInv taken)).1
  · intro label next answer taken
    exact ⟨(nextInv taken).fifo, rfl, rfl, inv.linearizes newest taken (nextInv taken)⟩

/-- A push whose tail store wraps the counter. -/
theorem ring_linearizable_wrapping :
    LinearizableRing (2 ^ 64 - 1) (perform ringStep (ringStart killCap Unit (2 ^ 64 - 1) 0)
      [.pushLoadTail () 7, .pushLoadHead (), .popLoadHead, .pushWrite (), .pushStore ()]) :=
  ring_linearizable killCap Nat (2 ^ 64 - 1) _
    ((ringStart_reachable killCap Unit (by decide) 0).perform _)

end OneProducer

end Control
end Rfofs
