import Rfofs.Control.SegmentWords

namespace Rfofs
namespace Control

open Foundation
open Engine (ClockMode)

/-!
# What the steps of a handshake preserve

A segment on which `ready` was stored belongs to a server that has returned, and one without
pages to a server that has not truncated it (`Sane`).  Segments only grow, so what a process
knows of its segment it goes on knowing whatever the others do.
-/

/-! ## All segments and processes -/

section Invariant

variable {ι κ : Type*}

/-- An entry of a list after one of them was set. -/
theorem lookup_set {X : Type*} {xs : List X} {g h : Nat} {x y : X}
    (found : (xs.set g x)[h]? = some y) : (h = g ∧ y = x) ∨ (h ≠ g ∧ xs[h]? = some y) := by
  by_cases same : h = g
  · subst same
    have inside := (List.getElem?_eq_some_iff.mp found).1
    rw [List.length_set] at inside
    rw [List.getElem?_set_self inside] at found
    exact Or.inl ⟨rfl, (Option.some.inj found).symm⟩
  · rw [List.getElem?_set_ne (Ne.symm same)] at found
    exact Or.inr ⟨same, found⟩

/-- What becomes of segments: they keep their creators and their size, and what a process
has seen it has seen. -/
def Grows (old new : List (Segment ι κ)) : Prop :=
  ∀ (g : Nat) (segment : Segment ι κ), old[g]? = some segment →
    ∃ later : Segment ι κ, new[g]? = some later ∧
    later.creator = segment.creator ∧ (segment.sized = true → later.sized = true) ∧
    ∀ p a, (segment.memory.views p).stamp a ≤ (later.memory.views p).stamp a

namespace Grows

theorem refl (segments : List (Segment ι κ)) : Grows segments segments :=
  fun _ segment found => ⟨segment, found, rfl, id, fun _ _ => Nat.le_refl _⟩

theorem append (segments more : List (Segment ι κ)) : Grows segments (segments ++ more) := by
  intro g segment found
  refine ⟨segment, ?_, rfl, id, fun _ _ => Nat.le_refl _⟩
  rw [List.getElem?_append_left (List.getElem?_eq_some_iff.mp found).1]
  exact found

theorem set {segments : List (Segment ι κ)} {g : Nat} {segment later : Segment ι κ}
    (found : segments[g]? = some segment) (creator : later.creator = segment.creator)
    (sized : segment.sized = true → later.sized = true)
    (stamps : ∀ p a, (segment.memory.views p).stamp a ≤ (later.memory.views p).stamp a) :
    Grows segments (segments.set g later) := by
  intro h other listed
  by_cases same : h = g
  · subst same
    rw [found] at listed
    cases listed
    refine ⟨later, ?_, creator, sized, stamps⟩
    exact List.getElem?_set_self (List.getElem?_eq_some_iff.mp found).1
  · refine ⟨other, ?_, rfl, id, fun _ _ => Nat.le_refl _⟩
    rw [List.getElem?_set_ne (Ne.symm same)]
    exact listed

end Grows

/-- What is known of a server at its program counter: which segment is its own, and how far
its stores have come. -/
def ServerPc.Holds (args : CreateArgs) (i : ι) (segments : List (Segment ι κ)) : ServerPc → Prop
  | .opened g => ∃ segment, segments[g]? = some segment ∧ segment.creator = i
  | .truncated g =>
      ∃ segment, segments[g]? = some segment ∧ segment.creator = i ∧ segment.sized = true
  | .storing g rest =>
      ∃ segment, segments[g]? = some segment ∧ segment.creator = i ∧ segment.sized = true ∧
        ∃ done, done ++ rest = args.stores ∧
          ∀ entry ∈ done, 0 < (segment.memory.views (.server i)).stamp entry.1
  | _ => True

/-- A server that has not yet truncated its segment, or could not. -/
def ServerPc.Unsized (g : Nat) (pc : ServerPc) : Prop :=
  pc = .opened g ∨ ∃ errno, pc = .failed errno

/-- A client that has the segment mapped and has acquired `ready`.  Its view has seen every
word stored. -/
def Ready (k : κ) (g : Nat) (segments : List (Segment ι κ)) : Prop :=
  ∃ segment, segments[g]? = some segment ∧ segment.sized = true ∧
    Complete (segment.memory.views (.client k))

/-- What is known of a client at its program counter.  From the load of `ready` on, this is
`Ready`. -/
def ClientPc.Holds (k : κ) (segments : List (Segment ι κ)) : ClientPc → Prop
  | .opened g => ∃ segment, segments[g]? = some segment
  | .polling g left =>
      left ≤ 100 ∧ ∃ segment, segments[g]? = some segment ∧ (left < 100 → segment.sized = true)
  | .readied g | .checked g | .attached g => Ready k g segments
  | .failed .versionMismatch => False
  | _ => True

/-- What a client has seen it has seen for good. -/
theorem Ready.grow {k : κ} {g : Nat} {old new : List (Segment ι κ)} (ready : Ready k g old)
    (grows : Grows old new) : Ready k g new := by
  rcases ready with ⟨segment, found, sized, complete⟩
  rcases grows g segment found with ⟨later, listed, _, kept, stamps⟩
  exact ⟨later, listed, kept sized, fun a => (complete a).trans_le (stamps _ a)⟩

theorem ServerPc.Holds.grow {args : CreateArgs} {i : ι} {old new : List (Segment ι κ)}
    {pc : ServerPc} (holds : pc.Holds args i old) (grows : Grows old new) :
    pc.Holds args i new := by
  cases pc with
  | opened g =>
      rcases holds with ⟨segment, found, created⟩
      rcases grows g segment found with ⟨later, listed, creator, _⟩
      exact ⟨later, listed, creator.trans created⟩
  | truncated g =>
      rcases holds with ⟨segment, found, created, sized⟩
      rcases grows g segment found with ⟨later, listed, creator, kept, _⟩
      exact ⟨later, listed, creator.trans created, kept sized⟩
  | storing g rest =>
      rcases holds with ⟨segment, found, created, sized, done, split, seen⟩
      rcases grows g segment found with ⟨later, listed, creator, kept, stamps⟩
      exact ⟨later, listed, creator.trans created, kept sized, done, split,
        fun entry member => (seen entry member).trans_le (stamps _ _)⟩
  | start | taken | unlinked | failed => trivial

theorem ClientPc.Holds.grow {k : κ} {old new : List (Segment ι κ)} {pc : ClientPc}
    (holds : pc.Holds k old) (grows : Grows old new) : pc.Holds k new := by
  cases pc with
  | opened g =>
      rcases holds with ⟨segment, found⟩
      rcases grows g segment found with ⟨later, listed, _⟩
      exact ⟨later, listed⟩
  | polling g left =>
      rcases holds with ⟨bounded, segment, found, sized⟩
      rcases grows g segment found with ⟨later, listed, _, kept, _⟩
      exact ⟨bounded, later, listed, fun polled => kept (sized polled)⟩
  | readied g | checked g | attached g => exact Ready.grow holds grows
  | failed error => cases error <;> exact holds
  | start | busError => trivial

/-- What holds of the name, the segments and the processes in every run.  Each part speaks of
one segment or of one process. -/
structure Sane (args : ι → CreateArgs) (s : Handshake ι κ) : Prop where
  sound : ∀ (g : Nat) (segment : Segment ι κ), s.segments[g]? = some segment →
    Sound (args segment.creator) segment.modes segment.memory
  named : ∀ g, s.name = some g → g < s.segments.length
  finished : ∀ (g : Nat) (segment : Segment ι κ), s.segments[g]? = some segment →
    1 < (segment.memory.history .ready).length → s.servers segment.creator = .storing g []
  unsized : ∀ (g : Nat) (segment : Segment ι κ), s.segments[g]? = some segment →
    segment.sized = false → (s.servers segment.creator).Unsized g
  servers : ∀ i, (s.servers i).Holds (args i) i s.segments
  clients : ∀ k, (s.clients k).Holds k s.segments

namespace Sane

variable {args : ι → CreateArgs} {s : Handshake ι κ}

/-- A step that lets the segments grow.  What was known of other processes stays known. -/
theorem next (sane : Sane args s) {next : Handshake ι κ} (grows : Grows s.segments next.segments)
    (sound : ∀ (g : Nat) (segment : Segment ι κ), next.segments[g]? = some segment →
      Sound (args segment.creator) segment.modes segment.memory)
    (named : ∀ g, next.name = some g → g < next.segments.length)
    (finished : ∀ (g : Nat) (segment : Segment ι κ), next.segments[g]? = some segment →
      1 < (segment.memory.history .ready).length → next.servers segment.creator = .storing g [])
    (unsized : ∀ (g : Nat) (segment : Segment ι κ), next.segments[g]? = some segment →
      segment.sized = false → (next.servers segment.creator).Unsized g)
    (servers : ∀ i, next.servers i = s.servers i ∨ (next.servers i).Holds (args i) i next.segments)
    (clients : ∀ k, next.clients k = s.clients k ∨ (next.clients k).Holds k next.segments) :
    Sane args next := by
  refine ⟨sound, named, finished, unsized, fun i => ?_, fun k => ?_⟩
  · rcases servers i with same | holds
    · rw [same]
      exact (sane.servers i).grow grows
    · exact holds
  · rcases clients k with same | holds
    · rw [same]
      exact (sane.clients k).grow grows
    · exact holds

/-- A process changes a segment, but not the messages of `ready`. -/
theorem setSegment (sane : Sane args s) {g : Nat} {segment later : Segment ι κ}
    (found : s.segments[g]? = some segment) (creator : later.creator = segment.creator)
    (sized : segment.sized = true → later.sized = true)
    (stamps : ∀ p a, (segment.memory.views p).stamp a ≤ (later.memory.views p).stamp a)
    (sound : Sound (args segment.creator) later.modes later.memory)
    (ready : (later.memory.history .ready).length = (segment.memory.history .ready).length) :
    Sane args (s.setSegment g later) := by
  refine sane.next (Grows.set found creator sized stamps) ?_ ?_ ?_ ?_ (fun i => Or.inl rfl)
    (fun k => Or.inl rfl)
  · intro h other member
    rcases lookup_set member with ⟨rfl, rfl⟩ | ⟨_, old⟩
    · rw [creator]
      exact sound
    · exact sane.sound h other old
  · intro h name
    change h < (s.segments.set g later).length
    rw [List.length_set]
    exact sane.named h name
  · intro h other member stored
    change s.servers other.creator = _
    rcases lookup_set member with ⟨rfl, rfl⟩ | ⟨_, old⟩
    · rw [creator]
      rw [ready] at stored
      exact sane.finished h segment found stored
    · exact sane.finished h other old stored
  · intro h other member small
    change (s.servers other.creator).Unsized h
    rcases lookup_set member with ⟨rfl, rfl⟩ | ⟨_, old⟩
    · rw [creator]
      refine sane.unsized h segment found (Bool.eq_false_iff.mpr (fun large => ?_))
      rw [sized large] at small
      cases small
    · exact sane.unsized h other old small

section Moves

variable [DecidableEq ι] [DecidableEq κ]

omit [DecidableEq κ] in
/-- A server goes on that has not returned, or one fails that waits for its pages. -/
theorem moveServer (sane : Sane args s) {i : ι} {pc : ServerPc}
    (busy : ∀ g, s.servers i ≠ .storing g [])
    (waits : (∀ g, ¬ (s.servers i).Unsized g) ∨ ∃ errno, pc = .failed errno)
    (holds : pc.Holds (args i) i s.segments) : Sane args (s.setServer i pc) := by
  refine sane.next (Grows.refl _) sane.sound sane.named ?_ ?_ ?_ (fun k => Or.inl rfl)
  · intro g segment found stored
    have done := sane.finished g segment found stored
    have different : segment.creator ≠ i := by
      rintro rfl
      exact busy g done
    exact (Function.update_of_ne different _ _).trans done
  · intro g segment found small
    have before := sane.unsized g segment found small
    by_cases same : segment.creator = i
    · rcases waits with sized | failed
      · rw [same] at before
        exact absurd before (sized g)
      · right
        rw [same]
        change ∃ errno, Function.update s.servers i pc i = _
        rw [Function.update_self]
        exact failed
    · change ServerPc.Unsized g (Function.update s.servers i pc segment.creator)
      rw [Function.update_of_ne same]
      exact before
  · intro j
    by_cases same : j = i
    · subst same
      right
      change (Function.update s.servers j pc j).Holds _ _ _
      rw [Function.update_self]
      exact holds
    · exact Or.inl (Function.update_of_ne same _ _)

omit [DecidableEq ι] in
theorem moveClient (sane : Sane args s) {k : κ} {pc : ClientPc} (holds : pc.Holds k s.segments) :
    Sane args (s.setClient k pc) := by
  refine sane.next (Grows.refl _) sane.sound sane.named sane.finished sane.unsized
    (fun i => Or.inl rfl) ?_
  intro j
  by_cases same : j = k
  · subst same
    right
    change (Function.update s.clients j pc j).Holds _ _
    rw [Function.update_self]
    exact holds
  · exact Or.inl (Function.update_of_ne same _ _)

omit [DecidableEq ι] [DecidableEq κ] in
theorem unlink (sane : Sane args s) : Sane args { s with name := none } := by
  refine ⟨sane.sound, ?_, sane.finished, sane.unsized, sane.servers, sane.clients⟩
  intro g name
  cases name

omit [DecidableEq κ] in
/-- A new segment belongs to the server that has opened it.  No other process has it yet. -/
theorem openExclusive (sane : Sane args s) {i : ι} {refused : Option Nat} {next : Handshake ι κ}
    (at_pc : s.servers i = .start ∨ s.servers i = .unlinked)
    (opened : s.openExclusive i refused = .ok next) : Sane args next := by
  unfold Handshake.openExclusive at opened
  split at opened <;> cases opened
  have listed : ∀ {g : Nat} {segment : Segment ι κ},
      (s.segments ++ [⟨i, false, zeroed ι κ, []⟩])[g]? = some segment →
        s.segments[g]? = some segment ∨
          (g = s.segments.length ∧ segment = ⟨i, false, zeroed ι κ, []⟩) := by
    intro g segment found
    rcases Nat.lt_or_ge g s.segments.length with old | new
    · rw [List.getElem?_append_left old] at found
      exact Or.inl found
    · rw [List.getElem?_append_right new] at found
      rcases List.getElem?_eq_some_iff.mp found with ⟨inside, equal⟩
      rw [List.length_singleton] at inside
      exact Or.inr ⟨by omega, by rw [← equal, List.getElem_singleton]⟩
  refine sane.next (Grows.append _ _) ?_ ?_ ?_ ?_ ?_ (fun k => Or.inl rfl)
  · intro g segment found
    rcases listed found with old | ⟨_, rfl⟩
    · exact sane.sound g segment old
    · exact Sound.zeroed _
  · intro g name
    cases name
    change _ < (s.segments ++ [_]).length
    rw [List.length_append]
    exact Nat.lt_succ_self _
  · intro g segment found stored
    rcases listed found with old | ⟨_, rfl⟩
    · have done := sane.finished g segment old stored
      have different : segment.creator ≠ i := by
        rintro rfl
        rcases at_pc with at_pc | at_pc <;> rw [at_pc] at done <;> cases done
      exact (Function.update_of_ne different _ _).trans done
    · exact absurd stored (Nat.lt_irrefl 1)
  · intro g segment found small
    change ServerPc.Unsized g (Function.update s.servers i _ segment.creator)
    rcases listed found with old | ⟨rfl, rfl⟩
    · have before := sane.unsized g segment old small
      have different : segment.creator ≠ i := by
        rintro rfl
        rcases at_pc with at_pc | at_pc <;> rw [at_pc] at before <;>
          rcases before with before | ⟨_, before⟩ <;> cases before
      rw [Function.update_of_ne different]
      exact before
    · rw [Function.update_self]
      exact Or.inl rfl
  · intro j
    by_cases same : j = i
    · subst same
      right
      change (Function.update s.servers j (.opened s.segments.length) j).Holds _ _ _
      rw [Function.update_self]
      exact ⟨_, List.getElem?_concat_length, rfl⟩
    · exact Or.inl (Function.update_of_ne same _ _)

/-- A load changes the view of its process only. -/
theorem loadFrom (sane : Sane args s) {p : Party ι κ} {g : Nat} {a : ControlWord} {order : LoadOrder}
    {t value : Nat} {next : Handshake ι κ}
    (loaded : s.loadFrom p g a order t = some (value, next)) :
    Sane args next ∧ Grows s.segments next.segments ∧
      ∃ segment memory, s.segments[g]? = some segment ∧
        segment.memory.load p a order t = some (value, memory) ∧
        next = s.setSegment g { segment with memory := memory } := by
  rcases Option.bind_eq_some_iff.mp loaded with ⟨segment, found, rest⟩
  rcases Option.map_eq_some_iff.mp rest with ⟨⟨other, memory⟩, read, same⟩
  cases same
  have stamps := segment.memory.stamp_le_load read
  refine ⟨?_, Grows.set found rfl id stamps, segment, memory, found, read, rfl⟩
  refine sane.setSegment found rfl id stamps ((sane.sound g segment found).load read).1 ?_
  rw [(segment.memory.load_eq_self read).1]

/-- A client that has acquired `ready` loads what its segment allows.  The zeros of the fresh
pages are out of its reach. -/
theorem loadReady (sane : Sane args s) {k : κ} {g : Nat} (ready : Ready k g s.segments) {a : ControlWord}
    {t value : Nat} {next : Handshake ι κ}
    (loaded : s.loadFrom (.client k) g a .relaxed t = some (value, next)) :
    Sane args next ∧ Ready k g next.segments ∧
      ∃ segment, s.segments[g]? = some segment ∧
        (args segment.creator).Allows segment.modes a value := by
  rcases sane.loadFrom loaded with ⟨nextSane, grows, segment, memory, found, read, _⟩
  refine ⟨nextSane, ready.grow grows, segment, found, ?_⟩
  rcases ready with ⟨same, listed, _, complete⟩
  rw [found] at listed
  cases listed
  exact ((sane.sound g segment found).load read).2 (complete a)

/-! ### The steps of a server -/

omit [DecidableEq κ] in
theorem serverOpen (sane : Sane args s) {i : ι} {refused : Option Nat} {next : Handshake ι κ}
    (taken : s.serverOpen i refused = some next) : Sane args next := by
  cases at_pc : s.servers i with
  | start =>
      cases opened : s.openExclusive i refused with
      | ok later =>
          simp only [Handshake.serverOpen, at_pc, opened] at taken
          cases taken
          exact sane.openExclusive (Or.inl at_pc) opened
      | error errno =>
          simp only [Handshake.serverOpen, at_pc, opened] at taken
          cases taken
          apply sane.moveServer
          · intro g impossible
            rw [at_pc] at impossible
            cases impossible
          · left
            rintro g (impossible | ⟨_, impossible⟩) <;> rw [at_pc] at impossible <;>
              cases impossible
          · split <;> trivial
  | _ =>
      simp only [Handshake.serverOpen, at_pc] at taken
      cases taken

omit [DecidableEq κ] in
theorem serverUnlink (sane : Sane args s) {i : ι} {refused : Option Nat} {next : Handshake ι κ}
    (taken : s.serverUnlink i refused = some next) : Sane args next := by
  cases at_pc : s.servers i with
  | taken =>
      have moved : Sane args (s.setServer i .unlinked) := by
        apply sane.moveServer
        · intro g impossible
          rw [at_pc] at impossible
          cases impossible
        · left
          rintro g (impossible | ⟨_, impossible⟩) <;> rw [at_pc] at impossible <;>
            cases impossible
        · trivial
      cases refused with
      | some errno =>
          simp only [Handshake.serverUnlink, at_pc] at taken
          cases taken
          exact moved
      | none =>
          simp only [Handshake.serverUnlink, at_pc] at taken
          cases taken
          exact moved.unlink
  | _ =>
      simp only [Handshake.serverUnlink, at_pc] at taken
      cases taken

omit [DecidableEq κ] in
theorem serverReopen (sane : Sane args s) {i : ι} {refused : Option Nat} {next : Handshake ι κ}
    (taken : s.serverReopen i refused = some next) : Sane args next := by
  cases at_pc : s.servers i with
  | unlinked =>
      cases opened : s.openExclusive i refused with
      | ok later =>
          simp only [Handshake.serverReopen, at_pc, opened] at taken
          cases taken
          exact sane.openExclusive (Or.inr at_pc) opened
      | error errno =>
          simp only [Handshake.serverReopen, at_pc, opened] at taken
          cases taken
          apply sane.moveServer
          · intro g impossible
            rw [at_pc] at impossible
            cases impossible
          · exact Or.inr ⟨errno, rfl⟩
          · trivial
  | _ =>
      simp only [Handshake.serverReopen, at_pc] at taken
      cases taken

omit [DecidableEq κ] in
theorem serverTruncate (sane : Sane args s) {i : ι} {refused : Option Nat} {next : Handshake ι κ}
    (taken : s.serverTruncate i refused = some next) : Sane args next := by
  cases at_pc : s.servers i with
  | opened g =>
      have holds := sane.servers i
      rw [at_pc] at holds
      rcases holds with ⟨segment, found, created⟩
      have inside := (List.getElem?_eq_some_iff.mp found).1
      cases refused with
      | some errno =>
          simp only [Handshake.serverTruncate, at_pc] at taken
          cases taken
          apply sane.moveServer
          · intro h impossible
            rw [at_pc] at impossible
            cases impossible
          · exact Or.inr ⟨errno, rfl⟩
          · trivial
      | none =>
          simp only [Handshake.serverTruncate, at_pc, found, Option.map_some] at taken
          cases taken
          refine sane.next (Grows.set found rfl (fun _ => rfl) (fun _ _ => Nat.le_refl _)) ?_ ?_ ?_
            ?_ ?_ (fun k => Or.inl rfl)
          · intro h other member
            rcases lookup_set member with ⟨rfl, rfl⟩ | ⟨_, old⟩
            · exact sane.sound h segment found
            · exact sane.sound h other old
          · intro h name
            change h < (s.segments.set g _).length
            rw [List.length_set]
            exact sane.named h name
          · intro h other member stored
            have done : s.servers other.creator = .storing h [] := by
              rcases lookup_set member with ⟨rfl, rfl⟩ | ⟨_, old⟩
              · exact sane.finished h segment found stored
              · exact sane.finished h other old stored
            have different : other.creator ≠ i := by
              rintro rfl
              rw [at_pc] at done
              cases done
            exact (Function.update_of_ne different _ _).trans done
          · intro h other member small
            rcases lookup_set member with ⟨rfl, rfl⟩ | ⟨apart, old⟩
            · cases small
            · have before := sane.unsized h other old small
              have different : other.creator ≠ i := by
                rintro rfl
                rw [at_pc] at before
                rcases before with before | ⟨_, before⟩ <;> cases before
                exact apart rfl
              change ServerPc.Unsized h (Function.update s.servers i _ other.creator)
              rw [Function.update_of_ne different]
              exact before
          · intro j
            by_cases same : j = i
            · subst same
              right
              change (Function.update s.servers j (.truncated g) j).Holds _ _ _
              rw [Function.update_self]
              exact ⟨_, List.getElem?_set_self inside, created, rfl⟩
            · exact Or.inl (Function.update_of_ne same _ _)
  | _ =>
      simp only [Handshake.serverTruncate, at_pc] at taken
      cases taken

omit [DecidableEq κ] in
theorem serverMap (sane : Sane args s) {i : ι} {refused : Option Nat} {next : Handshake ι κ}
    (taken : s.serverMap args i refused = some next) : Sane args next := by
  cases at_pc : s.servers i with
  | truncated g =>
      have holds := sane.servers i
      rw [at_pc] at holds
      rcases holds with ⟨segment, found, created, sized⟩
      have busy : ∀ h, s.servers i ≠ .storing h [] := by
        intro h impossible
        rw [at_pc] at impossible
        cases impossible
      cases refused with
      | some errno =>
          simp only [Handshake.serverMap, at_pc] at taken
          cases taken
          exact sane.moveServer busy (Or.inr ⟨errno, rfl⟩) trivial
      | none =>
          simp only [Handshake.serverMap, at_pc] at taken
          cases taken
          apply sane.moveServer busy
          · left
            rintro h (impossible | ⟨_, impossible⟩) <;> rw [at_pc] at impossible <;>
              cases impossible
          · refine ⟨segment, found, created, sized, [], rfl, fun entry member => ?_⟩
            exact absurd member List.not_mem_nil
  | _ =>
      simp only [Handshake.serverMap, at_pc] at taken
      cases taken

/-- A store of the creator: `ready` comes last. -/
theorem serverStore (sane : Sane args s) {i : ι} {next : Handshake ι κ}
    (taken : s.serverStore i = some next) : Sane args next := by
  cases at_pc : s.servers i with
  | storing g left =>
      cases left with
      | nil =>
          simp only [Handshake.serverStore, at_pc] at taken
          cases taken
      | cons entry rest =>
          rcases entry with ⟨a, order, value⟩
          have holds := sane.servers i
          rw [at_pc] at holds
          rcases holds with ⟨segment, found, created, sized, done, split, seen⟩
          have inside := (List.getElem?_eq_some_iff.mp found).1
          simp only [Handshake.serverStore, at_pc, found, Option.map_some] at taken
          cases taken
          have allowed : (args segment.creator).Allows segment.modes a value := by
            rw [created]
            have listed : (a, order, value) ∈ (args i).stores := by
              rw [← split]
              exact List.mem_append_right _ List.mem_cons_self
            exact (args i).allows_stores segment.modes listed
          have last : a = .ready → rest = [] ∧ order = .release ∧
              ∀ b, b ≠ .ready → 0 < (segment.memory.views (.server i)).stamp b := by
            rintro rfl
            rcases (args i).stores_split split with ⟨final, released, all⟩
            refine ⟨final, released, fun b different => ?_⟩
            rcases all b different with ⟨entry, member, rfl⟩
            exact seen entry member
          have stored := (sane.sound g segment found).store (.server i) allowed
            (fun final => (last final).2)
          have stamps := segment.memory.stamp_le_store (.server i) a order value
          have apart : ∀ {h : Nat} {other : Segment ι κ}, s.segments[h]? = some other →
              1 < (other.memory.history .ready).length → other.creator ≠ i := by
            rintro h other old released rfl
            have done := sane.finished h other old released
            rw [at_pc] at done
            cases done
          refine sane.next (Grows.set found rfl id stamps) ?_ ?_ ?_ ?_ ?_ (fun k => Or.inl rfl)
          · intro h other member
            rcases lookup_set member with ⟨rfl, rfl⟩ | ⟨_, old⟩
            · exact stored.1
            · exact sane.sound h other old
          · intro h name
            change h < (s.segments.set g _).length
            rw [List.length_set]
            exact sane.named h name
          · intro h other member released
            change Function.update s.servers i _ other.creator = _
            rcases lookup_set member with ⟨rfl, rfl⟩ | ⟨_, old⟩
            · by_cases final : a = .ready
              · rw [(last final).1, created, Function.update_self]
              · have unchanged : (segment.memory.store (.server i) a order value).history .ready =
                    segment.memory.history .ready :=
                  Memory.append_of_ne _ _ (Ne.symm final)
                change 1 < ((segment.memory.store (.server i) a order value).history _).length
                  at released
                rw [unchanged] at released
                exact absurd created (apart found released)
            · rw [Function.update_of_ne (apart old released)]
              exact sane.finished h other old released
          · intro h other member small
            have before : (s.servers other.creator).Unsized h := by
              rcases lookup_set member with ⟨rfl, rfl⟩ | ⟨_, old⟩
              · exact sane.unsized h segment found small
              · exact sane.unsized h other old small
            have different : other.creator ≠ i := by
              rintro rfl
              rw [at_pc] at before
              rcases before with before | ⟨_, before⟩ <;> cases before
            change ServerPc.Unsized h (Function.update s.servers i _ other.creator)
            rw [Function.update_of_ne different]
            exact before
          · intro j
            by_cases same : j = i
            · subst same
              right
              change (Function.update s.servers j (.storing g rest) j).Holds _ _ _
              rw [Function.update_self]
              refine ⟨_, List.getElem?_set_self inside, created, sized, done ++ [(a, order, value)],
                ?_, fun entry member => ?_⟩
              · rw [List.append_assoc]
                exact split
              · rcases List.mem_append.mp member with old | new
                · exact (seen entry old).trans_le (stamps _ _)
                · rw [List.mem_singleton.mp new]
                  exact stored.2
            · exact Or.inl (Function.update_of_ne same _ _)
  | _ =>
      simp only [Handshake.serverStore, at_pc] at taken
      cases taken

theorem serverLoad (sane : Sane args s) {i : ι} {a : ControlWord} {t : Nat} {next : Handshake ι κ}
    (taken : s.serverLoad i a t = some next) : Sane args next := by
  simp only [Handshake.serverLoad] at taken
  split at taken
  · rcases Option.map_eq_some_iff.mp taken with ⟨⟨value, later⟩, loaded, rfl⟩
    exact (sane.loadFrom loaded).1
  · cases taken

/-! ### The steps of a client -/

omit [DecidableEq ι] in
theorem clientOpen (sane : Sane args s) {k : κ} {refused : Option Nat} {next : Handshake ι κ}
    (taken : s.clientOpen k refused = some next) : Sane args next := by
  simp only [Handshake.clientOpen] at taken
  split at taken
  · cases taken
    exact sane.moveClient trivial
  · cases taken
    exact sane.moveClient trivial
  · rename_i g _ named
    cases taken
    exact sane.moveClient ⟨_, List.getElem?_eq_getElem (sane.named g named)⟩
  · cases taken

omit [DecidableEq ι] in
theorem clientMap (sane : Sane args s) {k : κ} {refused : Option Nat} {next : Handshake ι κ}
    (taken : s.clientMap k refused = some next) : Sane args next := by
  simp only [Handshake.clientMap] at taken
  split at taken
  · cases taken
    exact sane.moveClient trivial
  · rename_i g at_pc
    cases taken
    have holds := sane.clients k
    rw [at_pc] at holds
    rcases holds with ⟨segment, found⟩
    exact sane.moveClient ⟨Nat.le_refl 100, segment, found, fun polled => absurd polled (by decide)⟩
  · cases taken

theorem poll (sane : Sane args s) {k : κ} {g left t : Nat} {segment : Segment ι κ}
    (found : s.segments[g]? = some segment) (sized : segment.sized = true) (bounded : left ≤ 100)
    {next : Handshake ι κ} (taken : s.poll k g left t = some next) : Sane args next := by
  rcases Option.map_eq_some_iff.mp taken with ⟨⟨value, later⟩, loaded, rfl⟩
  rcases sane.loadFrom loaded with ⟨laterSane, grows, same, memory, listed, read, rfl⟩
  rw [found] at listed
  cases listed
  have inside := (List.getElem?_eq_some_iff.mp found).1
  have kept := List.getElem?_set_self (a := { segment with memory := memory }) inside
  dsimp only
  split
  · rename_i set
    rw [set] at read
    exact laterSane.moveClient
      ⟨_, kept, sized, ((sane.sound g segment found).acquire read).1⟩
  · split
    · exact laterSane.moveClient trivial
    · exact laterSane.moveClient ⟨bounded, _, kept, fun _ => sized⟩

theorem clientPoll (sane : Sane args s) {k : κ} {t : Nat} {next : Handshake ι κ}
    (taken : s.clientPoll k t = some next) : Sane args next := by
  simp only [Handshake.clientPoll] at taken
  split at taken
  · rename_i g left at_pc
    have holds := sane.clients k
    rw [at_pc] at holds
    rcases holds with ⟨bounded, segment, found, _⟩
    rw [found, Option.bind_some] at taken
    split at taken
    · rename_i sized
      exact sane.poll found sized (Nat.le_of_succ_le bounded) taken
    · cases taken
      exact sane.moveClient trivial
  · cases taken

theorem clientMagic (sane : Sane args s) {k : κ} {t : Nat} {next : Handshake ι κ}
    (taken : s.clientMagic k t = some next) : Sane args next := by
  simp only [Handshake.clientMagic] at taken
  split at taken
  · rename_i g at_pc
    rcases Option.map_eq_some_iff.mp taken with ⟨⟨value, later⟩, loaded, rfl⟩
    have holds := sane.clients k
    rw [at_pc] at holds
    rcases sane.loadReady holds loaded with ⟨laterSane, ready, segment, _, allowed⟩
    have same : value = SharedControlBlock.magic := allowed
    dsimp only
    rw [if_pos same]
    exact laterSane.moveClient ready
  · cases taken

theorem clientVersion (sane : Sane args s) {k : κ} {t : Nat} {next : Handshake ι κ}
    (taken : s.clientVersion k t = some next) : Sane args next := by
  simp only [Handshake.clientVersion] at taken
  split at taken
  · rename_i g at_pc
    rcases Option.map_eq_some_iff.mp taken with ⟨⟨value, later⟩, loaded, rfl⟩
    have holds := sane.clients k
    rw [at_pc] at holds
    rcases sane.loadReady holds loaded with ⟨laterSane, ready, segment, _, allowed⟩
    have same : value = SharedControlBlock.version := allowed
    dsimp only
    rw [if_pos same]
    exact laterSane.moveClient ready
  · cases taken

theorem clientLoad (sane : Sane args s) {k : κ} {a : ControlWord} {t : Nat} {next : Handshake ι κ}
    (taken : s.clientLoad k a t = some next) : Sane args next := by
  simp only [Handshake.clientLoad] at taken
  split at taken
  · rcases Option.map_eq_some_iff.mp taken with ⟨⟨value, later⟩, loaded, rfl⟩
    exact (sane.loadFrom loaded).1
  · cases taken

omit [DecidableEq ι] [DecidableEq κ] in
theorem setClockMode (sane : Sane args s) {k : κ} {mode : Nat} {next : Handshake ι κ}
    (taken : s.setClockMode k mode = some next) : Sane args next := by
  simp only [Handshake.setClockMode] at taken
  split at taken
  · split at taken
    · cases taken
      exact sane
    · rename_i g _ refused
      rcases Option.map_eq_some_iff.mp taken with ⟨segment, found, rfl⟩
      cases named : ClockMode.fromU32 mode with
      | none =>
          rw [named] at refused
          exact absurd rfl refused
      | some clockMode =>
          refine sane.setSegment found rfl id (fun _ _ => Nat.le_refl _)
            ((sane.sound g segment found).switch (.client k) named) ?_
          dsimp only
          rw [Memory.append_of_ne _ _ (by decide : ControlWord.ready ≠ .clockMode)]
  · cases taken

/-- What one step of any process preserves.  There is one case for each system call and each
access. -/
theorem step (sane : Sane args s) {label : HandshakeStep ι κ} {next : Handshake ι κ}
    (taken : s.step args label = some next) : Sane args next := by
  cases label with
  | serverOpen i refused => exact sane.serverOpen taken
  | serverUnlink i refused => exact sane.serverUnlink taken
  | serverReopen i refused => exact sane.serverReopen taken
  | serverTruncate i refused => exact sane.serverTruncate taken
  | serverMap i refused => exact sane.serverMap taken
  | serverStore i => exact sane.serverStore taken
  | serverLoad i a t => exact sane.serverLoad taken
  | clientOpen k refused => exact sane.clientOpen taken
  | clientMap k refused => exact sane.clientMap taken
  | clientPoll k t => exact sane.clientPoll taken
  | clientMagic k t => exact sane.clientMagic taken
  | clientVersion k t => exact sane.clientVersion taken
  | clientLoad k a t => exact sane.clientLoad taken
  | setClockMode k mode => exact sane.setClockMode taken

end Moves

end Sane

end Invariant

end Control
end Rfofs
