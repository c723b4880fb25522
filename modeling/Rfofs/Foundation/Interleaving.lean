import Rfofs.Foundation.BoundedFifo

namespace Rfofs
namespace Foundation

/-!
# Interleavings

A list interleaves two others when it is made of their entries and keeps the order of
each.  Operations that look at one entry at a time keep interleavings, and so does the
prefix that a property cuts off, as long as the list is ordered by this property.

`Interleaves.foldl` is the rule for two processes that share one input: where each step
leaves the other process alone, the joint run is related to the two runs apart.
-/

variable {X : Type*}

/-- The third list holds the entries of the first two, each in its order. -/
inductive Interleaves : List X → List X → List X → Prop
  | nil : Interleaves [] [] []
  | left {xs ys zs : List X} (x : X) : Interleaves xs ys zs → Interleaves (x :: xs) ys (x :: zs)
  | right {xs ys zs : List X} (y : X) : Interleaves xs ys zs → Interleaves xs (y :: ys) (y :: zs)

namespace Interleaves

variable {xs ys zs : List X}

theorem only_left (xs : List X) : Interleaves xs [] xs := by
  induction xs with
  | nil => exact nil
  | cons x xs ih => exact ih.left x

theorem symm (woven : Interleaves xs ys zs) : Interleaves ys xs zs := by
  induction woven with
  | nil => exact nil
  | left x _ ih => exact ih.right x
  | right y _ ih => exact ih.left y

theorem only_right (ys : List X) : Interleaves [] ys ys := (only_left ys).symm

/-- Two interleavings in a row are one. -/
theorem append {xs' ys' zs' : List X} (first : Interleaves xs ys zs)
    (second : Interleaves xs' ys' zs') :
    Interleaves (xs ++ xs') (ys ++ ys') (zs ++ zs') := by
  induction first with
  | nil => exact second
  | left x _ ih => exact ih.left x
  | right y _ ih => exact ih.right y

/-- Each side is a sublist of the whole. -/
theorem sublist_left (woven : Interleaves xs ys zs) : xs.Sublist zs := by
  induction woven with
  | nil => exact List.Sublist.refl _
  | left x _ ih => exact ih.cons_cons x
  | right y _ ih => exact ih.cons y

theorem sublist_right (woven : Interleaves xs ys zs) : ys.Sublist zs :=
  woven.symm.sublist_left

/-- Nothing is lost and nothing is added. -/
theorem perm (woven : Interleaves xs ys zs) : zs.Perm (xs ++ ys) := by
  induction woven with
  | nil => exact List.Perm.refl _
  | left x _ ih => exact ih.cons x
  | right y _ ih => exact (ih.cons y).trans List.perm_middle.symm

theorem length_eq (woven : Interleaves xs ys zs) : zs.length = xs.length + ys.length := by
  rw [woven.perm.length_eq, List.length_append]

theorem mem_iff (woven : Interleaves xs ys zs) {x : X} : x ∈ zs ↔ x ∈ xs ∨ x ∈ ys := by
  rw [woven.perm.mem_iff, List.mem_append]

/-- Filtering the whole is filtering the sides. -/
theorem filter (woven : Interleaves xs ys zs) (p : X → Bool) :
    Interleaves (xs.filter p) (ys.filter p) (zs.filter p) := by
  induction woven with
  | nil => exact nil
  | left x _ ih =>
      rw [List.filter_cons, List.filter_cons]
      split
      · exact ih.left x
      · exact ih
  | right y _ ih =>
      rw [List.filter_cons, List.filter_cons]
      split
      · exact ih.right y
      · exact ih

/-- Each side may be mapped by a function of its own, as long as the whole agrees. -/
theorem map {Y : Type*} {f g h : X → Y} (woven : Interleaves xs ys zs)
    (onLeft : ∀ x ∈ xs, h x = f x) (onRight : ∀ y ∈ ys, h y = g y) :
    Interleaves (xs.map f) (ys.map g) (zs.map h) := by
  induction woven with
  | nil => exact nil
  | left x _ ih =>
      rw [List.map_cons, List.map_cons, onLeft x List.mem_cons_self]
      exact (ih (fun other member => onLeft other (List.mem_cons_of_mem _ member)) onRight).left _
  | right y _ ih =>
      rw [List.map_cons, List.map_cons, onRight y List.mem_cons_self]
      exact (ih onLeft (fun other member => onRight other (List.mem_cons_of_mem _ member))).right _

theorem flatMap {I : Type*} {f g h : I → List X} {is : List I}
    (each : ∀ i ∈ is, Interleaves (f i) (g i) (h i)) :
    Interleaves (is.flatMap f) (is.flatMap g) (is.flatMap h) := by
  induction is with
  | nil => exact nil
  | cons i is ih =>
      rw [List.flatMap_cons, List.flatMap_cons, List.flatMap_cons]
      exact (each i List.mem_cons_self).append
        (ih (fun other member => each other (List.mem_cons_of_mem _ member)))

/-! ## Two processes with one input -/

/-- An input of one side moves its own process, and is not noticed by the other.  The relation
holds between the three states throughout. -/
theorem foldl {S T U : Type*} (joint : S → X → S) (first : T → X → T) (second : U → X → U)
    (rel : S → T → U → Prop) (woven : Interleaves xs ys zs)
    (onLeft : ∀ s t u, ∀ x ∈ xs, rel s t u → rel (joint s x) (first t x) u)
    (onRight : ∀ s t u, ∀ y ∈ ys, rel s t u → rel (joint s y) t (second u y))
    {s : S} {t : T} {u : U} (start : rel s t u) :
    rel (zs.foldl joint s) (xs.foldl first t) (ys.foldl second u) := by
  induction woven generalizing s t u with
  | nil => exact start
  | left x _ ih =>
      exact ih (fun s t u other member => onLeft s t u other (List.mem_cons_of_mem _ member)) onRight
        (onLeft s t u x List.mem_cons_self start)
  | right y _ ih =>
      exact ih onLeft
        (fun s t u other member => onRight s t u other (List.mem_cons_of_mem _ member))
        (onRight s t u y List.mem_cons_self start)

end Interleaves

/-! ## Prefixes of ordered lists -/

/-- In a list ordered by a property, the prefix that has it is everything that has it. -/
theorem takeWhile_eq_filter {p : X → Bool} {xs : List X}
    (ordered : xs.Pairwise (fun x y => p y = true → p x = true)) :
    xs.takeWhile p = xs.filter p := by
  induction xs with
  | nil => rfl
  | cons x xs ih =>
      rw [List.pairwise_cons] at ordered
      rw [List.takeWhile_cons, List.filter_cons, ih ordered.2]
      split
      · rfl
      · rename_i without
        exact (List.filter_eq_nil_iff.mpr (fun y member has => without (ordered.1 y member has))).symm

theorem dropWhile_eq_filter {p : X → Bool} {xs : List X}
    (ordered : xs.Pairwise (fun x y => p y = true → p x = true)) :
    xs.dropWhile p = xs.filter (fun x => !p x) := by
  induction xs with
  | nil => rfl
  | cons x xs ih =>
      rw [List.pairwise_cons] at ordered
      rw [List.dropWhile_cons]
      split
      · rename_i has
        rw [ih ordered.2, List.filter_cons_of_neg (by simp [has])]
      · rename_i without
        refine (List.filter_eq_self.mpr (fun y member => ?_)).symm
        rcases List.mem_cons.mp member with rfl | later
        · simpa using without
        · simpa using fun has => without (ordered.1 y later has)

/-! ## Joint runs and shares -/

inductive Side where
  | left
  | right
  deriving DecidableEq

def Side.other : Side → Side
  | .left => .right
  | .right => .left

/-- The joint run, or the run of one side alone. -/
inductive Part where
  | joint
  | share (side : Side)
  deriving DecidableEq

def Part.hears : Part → Side → Bool
  | .joint, _ => true
  | .share own, side => decide (own = side)

def Part.pick {S : Type*} (left right joint : S) : Part → S
  | .joint => joint
  | .share .left => left
  | .share .right => right

/-- The joint list interleaves the two shares. -/
def Woven {X : Type*} (xs : Part → List X) : Prop :=
  Interleaves (xs (.share .left)) (xs (.share .right)) (xs .joint)

theorem Woven.of_eq {X : Type*} {xs ys : Part → List X} (same : ∀ part, ys part = xs part)
    (woven : Woven xs) : Woven ys :=
  (funext same : ys = xs) ▸ woven

theorem Woven.sublist {X : Type*} {xs : Part → List X} (woven : Woven xs) (part : Part) :
    (xs part).Sublist (xs .joint) := by
  rcases part with _ | (_ | _)
  · exact List.Sublist.refl _
  · exact woven.sublist_left
  · exact woven.sublist_right

theorem Woven.mem_joint {X : Type*} {xs : Part → List X} (woven : Woven xs) (side : Side) {x : X} :
    x ∈ xs .joint ↔ x ∈ xs (.share side) ∨ x ∈ xs (.share side.other) := by
  cases side with
  | left => exact Interleaves.mem_iff woven
  | right => exact (Interleaves.mem_iff woven).trans or_comm

/-- A new entry at the end, for those who hear it. -/
theorem Woven.push {X : Type*} {xs : Part → List X} (woven : Woven xs) (side : Side) (x : X) :
    Woven (fun part => if part.hears side then xs part ++ [x] else xs part) := by
  cases side with
  | left =>
      have longer := Interleaves.append woven (Interleaves.only_left [x])
      rwa [List.append_nil] at longer
  | right =>
      have longer := Interleaves.append woven (Interleaves.only_right [x])
      rwa [List.append_nil] at longer

/-- What one side does to the entries of its own does not show on the other side. -/
theorem Woven.map_share {X : Type*} {xs : Part → List X} (woven : Woven xs) {side : Side}
    {f : X → X} (unheard : ∀ x ∈ xs (.share side.other), f x = x) :
    Woven (fun part => if part.hears side then (xs part).map f else xs part) := by
  cases side with
  | left =>
      have mapped := Interleaves.map (f := f) (g := id) (h := f) woven (fun _ _ => rfl) unheard
      rwa [List.map_id] at mapped
  | right =>
      have mapped := Interleaves.map (f := id) (g := f) (h := f) woven unheard (fun _ _ => rfl)
      rwa [List.map_id] at mapped

/-- A relation between three states that one entry of either side keeps is kept by woven
lists of entries. -/
theorem Woven.foldl {S X : Type*} {xs : Part → List X} (woven : Woven xs) (step : S → X → S)
    {owns : Side → X → Prop} (owned : ∀ side, ∀ x ∈ xs (.share side), owns side x)
    (rel : (Part → S) → Prop)
    (each : ∀ states side x, owns side x → rel states →
      rel (fun part => if part.hears side then step (states part) x else states part))
    {states : Part → S} (start : rel states) :
    rel (fun part => (xs part).foldl step (states part)) := by
  have parts : ∀ family : Part → S,
      family = Part.pick (family (.share .left)) (family (.share .right)) (family .joint) := by
    intro family
    funext part
    rcases part with _ | (_ | _) <;> rfl
  have run := Interleaves.foldl step step step
    (fun joint left right => rel (Part.pick left right joint)) woven
    (fun s t u x member held => by
      have next := each _ .left x (owned .left x member) held
      rwa [parts (fun part => if part.hears .left then _ else _)] at next)
    (fun s t u y member held => by
      have next := each _ .right y (owned .right y member) held
      rwa [parts (fun part => if part.hears .right then _ else _)] at next)
    (s := states .joint) (t := states (.share .left)) (u := states (.share .right))
    (parts states ▸ start)
  rwa [parts (fun part => (xs part).foldl step (states part))]

/-- The rings of the joint run and of the two sides, with what each side may push. -/
structure SharedRing {X : Type*} (owns : Side → X → Prop) (ring : Part → BoundedFifo X) :
    Prop where
  items : Woven (fun part => (ring part).items)
  capacity : ∀ part, (ring part).capacity = (ring .joint).capacity
  owned : ∀ side, ∀ x ∈ (ring (.share side)).items, owns side x

/-- What is pushed to the joint ring finds room in the ring of its side.  The rings have one
capacity, and a share is no longer than the whole. -/
theorem SharedRing.push {X : Type*} {owns : Side → X → Prop} {ring : Part → BoundedFifo X}
    (shared : SharedRing owns ring) {side : Side} {x : X} (own : owns side x)
    {next : BoundedFifo X} (pushed : (ring .joint).push x = .ok next) :
    ∃ nexts : Part → BoundedFifo X,
      (∀ part, part.hears side = true → (ring part).push x = .ok (nexts part)) ∧
      (∀ part, part.hears side = false → nexts part = ring part) ∧ SharedRing owns nexts ∧
      (nexts .joint).items = (ring .joint).items ++ [x] := by
  have room : (ring .joint).items.length < (ring .joint).capacity := by
    rcases Nat.lt_or_eq_of_le (ring .joint).bounded with room | full
    · exact room
    · rw [BoundedFifo.push_eq_error full] at pushed
      cases pushed
  have each : ∀ part, ∃ after : BoundedFifo X,
      (part.hears side = true → (ring part).push x = .ok after) ∧
      (part.hears side = false → after = ring part) ∧ after.capacity = (ring part).capacity ∧
      after.items = if part.hears side then (ring part).items ++ [x] else (ring part).items := by
    intro part
    cases part.hears side with
    | false => exact ⟨ring part, nofun, fun _ => rfl, rfl, rfl⟩
    | true =>
        rcases (ring part).push_cases x with ⟨after, equal, items, capacity, _⟩ | ⟨_, full⟩
        · exact ⟨after, fun _ => equal, nofun, capacity, items⟩
        · have shorter := (shared.items.sublist part).length_le
          rw [full, shared.capacity part] at shorter
          exact absurd room (Nat.not_lt_of_le shorter)
  choose nexts hearing deaf capacity items using each
  refine ⟨nexts, hearing, deaf, ⟨Woven.of_eq items (shared.items.push side x), fun part => ?_,
    fun other y member => ?_⟩, items .joint⟩
  · rw [capacity part, capacity .joint]
    exact shared.capacity part
  · rw [items] at member
    split at member
    · rename_i heard
      rcases List.mem_append.mp member with old | new
      · exact shared.owned other y old
      · rw [List.mem_singleton.mp new, of_decide_eq_true heard]
        exact own
    · exact shared.owned other y member

end Foundation
end Rfofs
