import Rfofs.Engine.Roster
import Rfofs.Queue.Sharing

namespace Rfofs
namespace Engine

open Foundation
open Grain
open Queue

/-!
# Rosters of two sides

Two clients whose nonzero ids are disjoint share a roster, and beside it each of them has
a roster of its own.  The joint roster is woven: it holds the voices of the other two in
the order of spawning.  A new grain, a kill and a death take marks only from voices with
the same id, so nothing of one side is noticed by the other.

Rendering is a sum over the roster, so what is mixed from woven rosters adds up.
-/

variable {R : Type*}

/-! ## Mixing is a sum -/

section Mixing

variable [CommRing R]

/-- Add two outputs, channel by channel.  This is what the sum of two runs is compared with. -/
def addOutputs : List (List R) → List (List R) → List (List R) :=
  List.zipWith (List.zipWith (· + ·))

theorem addScaled_zipWith (gain : R) (xs ys mono : List R) :
    addScaled gain (List.zipWith (· + ·) xs ys) mono =
      List.zipWith (· + ·) (addScaled gain xs mono) ys := by
  induction xs generalizing ys mono with
  | nil => cases mono <;> rfl
  | cons x xs ih =>
      cases ys with
      | nil => cases mono <;> rfl
      | cons y ys =>
          cases mono with
          | nil => rfl
          | cons m mono =>
              rw [List.zipWith_cons_cons, addScaled, addScaled, List.zipWith_cons_cons, ih,
                add_right_comm]

/-- Two additions to one channel may change places. -/
theorem addScaled_right_comm (gain other : R) (out mono later : List R) :
    addScaled other (addScaled gain out mono) later =
      addScaled gain (addScaled other out later) mono := by
  induction out generalizing mono later with
  | nil => cases mono <;> cases later <;> rfl
  | cons x out ih =>
      cases mono with
      | nil => cases later <;> rfl
      | cons m mono =>
          cases later with
          | nil => rfl
          | cons l later => rw [addScaled, addScaled, addScaled, addScaled, ih, add_right_comm]

theorem addOutputs_comm (xs ys : List (List R)) : addOutputs xs ys = addOutputs ys xs := by
  unfold addOutputs
  rw [List.zipWith_comm]
  congr 1
  funext x y
  exact List.zipWith_comm_of_comm (fun a b => add_comm a b)

/-- Mixing into a sum of two outputs is mixing into one of them. -/
theorem scatter_addOutputs (mono gains : List R) (xs ys : List (List R)) :
    scatter mono gains (addOutputs xs ys) = addOutputs (scatter mono gains xs) ys := by
  unfold addOutputs
  induction xs generalizing gains ys with
  | nil => cases gains <;> rfl
  | cons x xs ih =>
      cases ys with
      | nil => cases gains <;> rfl
      | cons y ys =>
          cases gains with
          | nil => rfl
          | cons gain gains =>
              rw [List.zipWith_cons_cons, scatter, scatter, List.zipWith_cons_cons, ih,
                addScaled_zipWith]

/-- Two grains may be mixed in either order. -/
theorem scatter_right_comm (mono gains later others : List R) (outputs : List (List R)) :
    scatter later others (scatter mono gains outputs) =
      scatter mono gains (scatter later others outputs) := by
  induction outputs generalizing gains others with
  | nil => cases gains <;> cases others <;> rfl
  | cons out outputs ih =>
      cases gains with
      | nil => cases others <;> rfl
      | cons gain gains =>
          cases others with
          | nil => rfl
          | cons other others =>
              rw [scatter, scatter, scatter, scatter, ih, addScaled_right_comm]

/-- Outputs that have been zeroed.  The callback zeroes them before every block. -/
def silence (channels blockSize : Nat) : List (List R) :=
  List.replicate channels (List.replicate blockSize 0)

theorem silence_add (channels blockSize : Nat) :
    addOutputs (silence channels blockSize) (silence channels blockSize) =
      (silence channels blockSize : List (List R)) := by
  unfold addOutputs silence
  rw [List.zipWith_replicate, List.zipWith_replicate, Nat.min_self, Nat.min_self, add_zero]

end Mixing

section Grains

variable [Field R] [LinearOrder R] [FloorRing R] [RealOps R]

/-- Render one grain into the outputs.  The samples of the grain depend on the grain and the
block alone, so mixing is a fold over the pool. -/
def mixGrain (panMode : PanMode) (blockStart blockSize : Nat) (outputs : List (List R))
    (grain : FofState R) : List (List R) :=
  let filled := grain.fillBlock blockStart (List.replicate blockSize 0)
  scatter filled.2 (panGains filled.1.params.azm filled.1.params.elev filled.1.params.distance
    panMode (List.replicate panMode.channelCount 0)) outputs

theorem RfofsEngine.render_mix (engine : RfofsEngine R) (blockStart blockSize : Nat)
    (outputs : List (List R)) :
    (engine.render blockStart blockSize outputs).2 =
      engine.active.values.foldl (mixGrain engine.panMode blockStart blockSize) outputs := rfl

instance (panMode : PanMode) (blockStart blockSize : Nat) :
    RightCommutative (mixGrain (R := R) panMode blockStart blockSize) :=
  ⟨fun _ _ _ => scatter_right_comm _ _ _ _ _⟩

/-- A block mixes the grains of the roster, in any order.  The keys of the pool decide the
order in the program and disappear here. -/
theorem Represents.finish_outputs {engine : RfofsEngine R} {slots : List (Nat × Voice R)}
    (represents : Represents engine slots) (blockSize : Nat) (outputs : List (List R)) :
    (engine.finish blockSize outputs).2 = ((slots.map Prod.snd).map Voice.grain).foldl
      (mixGrain engine.panMode engine.sampleClock blockSize) outputs := by
  rw [List.map_map, RfofsEngine.finish, RfofsEngine.render_mix]
  exact represents.values.foldl_eq outputs

/-- The outputs of a joint list of grains are the sums of the outputs of its shares.  By
induction on the weaving: each grain is added on one side. -/
theorem mix_woven (panMode : PanMode) (blockStart blockSize channels : Nat)
    {grains : Part → List (FofState R)} (woven : Woven grains) :
    (grains .joint).foldl (mixGrain panMode blockStart blockSize) (silence channels blockSize) =
      addOutputs
        ((grains (.share .left)).foldl (mixGrain panMode blockStart blockSize)
          (silence channels blockSize))
        ((grains (.share .right)).foldl (mixGrain panMode blockStart blockSize)
          (silence channels blockSize)) := by
  apply Interleaves.foldl _ _ _ (fun joint left right => joint = addOutputs left right) woven
  · rintro _ left right grain _ rfl
    exact scatter_addOutputs _ _ _ _
  · rintro _ left right grain _ rfl
    rw [addOutputs_comm left, addOutputs_comm left]
    exact scatter_addOutputs _ _ _ _
  · exact (silence_add channels blockSize).symm

end Grains

/-! ## Woven rosters -/

theorem Voice.unmark_congr {first second : List Nat} {voice : Voice R}
    (same : voice.marked = true → (voice.id ∈ first ↔ voice.id ∈ second)) :
    voice.unmark first = voice.unmark second := by
  rcases voice with ⟨grain, _ | _⟩
  · unfold unmark
    split <;> split <;> rfl
  · unfold unmark
    simp only [same rfl]

theorem Voice.unmark_self {ids : List Nat} {voice : Voice R}
    (absent : voice.marked = true → voice.id ∉ ids) : voice.unmark ids = voice := by
  have same : voice.unmark ids = voice.unmark [] :=
    unmark_congr (fun marked => iff_of_false (absent marked) List.not_mem_nil)
  rw [same, unmark, if_neg List.not_mem_nil]

/-- A voice of a side has an id of this side or none, and is marked only if it has one.  The
mark says that the id map leads to this voice. -/
structure Belongs (ids : Side → Set Nat) (side : Side) (voice : Voice R) : Prop where
  owned : voice.id ≠ 0 → voice.id ∈ ids side
  nonzero : voice.marked = true → voice.id ≠ 0

theorem Belongs.changed {ids : Side → Set Nat} {side : Side} {old voice : Voice R}
    (belongs : Belongs ids side old) (ident : voice.id = old.id)
    (marked : voice.marked = true → old.marked = true) : Belongs ids side voice where
  owned := by
    rw [ident]
    exact belongs.owned
  nonzero := by
    rw [ident]
    exact fun mark => belongs.nonzero (marked mark)

theorem Belongs.unmark {ids : Side → Set Nat} {side : Side} {old : Voice R}
    (belongs : Belongs ids side old) (lost : List Nat) : Belongs ids side (old.unmark lost) :=
  belongs.changed (old.unmark_id lost) (fun marked => ((old.unmark_marked lost).mp marked).1)

/-- The rosters of the joint engine and of the two sides.  The joint roster is woven from the
others, voice by voice, with the same grains and the same marks. -/
structure Choir (ids : Side → Set Nat) (voices : Part → List (Voice R)) : Prop where
  woven : Woven voices
  belongs : ∀ side, ∀ voice ∈ voices (.share side), Belongs ids side voice

/-- A request whose id, unless it is zero, belongs to the side.  Grains without an id may be
sent on both sides. -/
def OwnsGrain (ids : Side → Set Nat) (side : Side) (params : FofParams R) : Prop :=
  params.id ≠ 0 → params.id ∈ ids side

/-- A kill request that names no grain of the other side. -/
def OwnsKill (ids : Side → Set Nat) (side : Side) (req : FofKillRequest R) : Prop :=
  req.id ∉ ids side.other

namespace Choir

variable {ids : Side → Set Nat} {voices : Part → List (Voice R)}

/-- A marked voice of a side has an id of this side. -/
theorem marked_owned (choir : Choir ids voices) {side : Side} {voice : Voice R}
    (member : voice ∈ voices (.share side)) (marked : voice.marked = true) :
    voice.id ∈ ids side :=
  (choir.belongs side voice member).owned ((choir.belongs side voice member).nonzero marked)

theorem apart_other {ids : Side → Set Nat} (apart : Disjoint (ids .left) (ids .right))
    {side : Side} {id : Nat} (own : id ∈ ids side) : id ∉ ids side.other := by
  cases side with
  | left => exact Set.disjoint_left.mp apart own
  | right => exact Set.disjoint_right.mp apart own

theorem grains (choir : Choir ids voices) : Woven (fun part => (voices part).map Voice.grain) :=
  Interleaves.map choir.woven (fun _ _ => rfl) (fun _ _ => rfl)

/-- The dead of one side take no marks from the other side.  Their ids are on their own side,
and the sides have no id in common. -/
theorem mem_deadIds (choir : Choir ids voices) (apart : Disjoint (ids .left) (ids .right))
    {side : Side} {voice : Voice R} (member : voice ∈ voices (.share side))
    (marked : voice.marked = true) :
    voice.id ∈ deadIds (voices .joint) ↔ voice.id ∈ deadIds (voices (.share side)) := by
  constructor
  · intro lost
    rcases List.mem_map.mp lost with ⟨dead, deadMember, same⟩
    rcases List.mem_filter.mp deadMember with ⟨listed, phase⟩
    rcases (choir.woven.mem_joint side).mp listed with own | other
    · exact List.mem_map.mpr ⟨dead, List.mem_filter.mpr ⟨own, phase⟩, same⟩
    · have nonzero := (choir.belongs side voice member).nonzero marked
      rw [← same] at nonzero
      have foreign := (choir.belongs side.other dead other).owned nonzero
      rw [same] at foreign
      exact absurd foreign (apart_other apart (choir.marked_owned member marked))
  · intro lost
    exact (((choir.woven.sublist (.share side)).filter _).map _).subset lost

/-- The dead leave the three rosters together. -/
theorem sweep (choir : Choir ids voices) (apart : Disjoint (ids .left) (ids .right)) :
    Choir ids (fun part => sweep (voices part)) where
  woven := by
    have kept := Interleaves.filter choir.woven
      (fun voice => decide (voice.grain.phase ≠ .dead))
    exact Interleaves.map kept
      (fun voice member => Voice.unmark_congr (choir.mem_deadIds apart
        (List.mem_of_mem_filter member)))
      (fun voice member => Voice.unmark_congr (choir.mem_deadIds apart
        (List.mem_of_mem_filter member)))
  belongs := by
    intro side voice member
    rcases List.mem_map.mp member with ⟨old, listed, rfl⟩
    exact (choir.belongs side old (List.mem_of_mem_filter listed)).unmark _

variable [Field R] [LinearOrder R] [FloorRing R] [RealOps R]

theorem fill (choir : Choir ids voices) (blockStart blockSize : Nat) :
    Choir ids (fun part => (voices part).map (Voice.fill blockStart blockSize)) where
  woven := Interleaves.map choir.woven (fun _ _ => rfl) (fun _ _ => rfl)
  belongs := by
    intro side voice member
    rcases List.mem_map.mp member with ⟨old, listed, rfl⟩
    exact (choir.belongs side old listed).changed (old.fill_id _ _) id

/-- A request of one side is spawned in the joint roster and in the roster of this side. -/
theorem enlist (choir : Choir ids voices) (apart : Disjoint (ids .left) (ids .right))
    (sampleRate : R) {side : Side} {params : FofParams R} (own : OwnsGrain ids side params) :
    Choir ids (fun part =>
      if part.hears side then enlist sampleRate (voices part) params else voices part) where
  woven := by
    have unheard : ∀ voice ∈ voices (.share side.other), voice.unmark [params.id] = voice := by
      intro voice member
      refine Voice.unmark_self (fun marked same => ?_)
      rw [List.mem_singleton] at same
      have foreign := choir.marked_owned member marked
      have nonzero := (choir.belongs side.other voice member).nonzero marked
      rw [same] at foreign nonzero
      exact apart_other apart (own nonzero) foreign
    refine Woven.of_eq (fun part => ?_)
      ((choir.woven.map_share unheard).push side (Voice.spawn sampleRate params))
    split <;> rfl
  belongs := by
    intro other voice member
    split at member
    · rename_i heard
      rcases List.mem_append.mp member with old | new
      · rcases List.mem_map.mp old with ⟨before, listed, rfl⟩
        exact (choir.belongs other before listed).unmark _
      · rw [List.mem_singleton.mp new, of_decide_eq_true heard]
        exact ⟨own, of_decide_eq_true⟩
    · exact choir.belongs other voice member

/-- A kill of one side reaches the same grain in the joint roster and in the roster of this
side. -/
theorem kill (choir : Choir ids voices) {side : Side} {req : FofKillRequest R}
    (own : OwnsKill ids side req) :
    Choir ids (fun part =>
      if part.hears side then (voices part).map (Voice.kill req) else voices part) where
  woven := by
    refine choir.woven.map_share (fun voice member => if_neg ?_)
    rintro ⟨marked, same⟩
    exact own (same ▸ choir.marked_owned member marked)
  belongs := by
    intro other voice member
    split at member
    · rcases List.mem_map.mp member with ⟨old, listed, rfl⟩
      exact (choir.belongs other old listed).changed (old.kill_id req)
        (fun marked => old.kill_marked req ▸ marked)
    · exact choir.belongs other voice member

/-- The rosters just before a block is rendered: after the sweep, the spawns and the kills. -/
theorem roused (choir : Choir ids voices) (apart : Disjoint (ids .left) (ids .right))
    (sampleRate : R) {incoming : Part → List (FofParams R)}
    {kills : Part → List (FofKillRequest R)} (incomingWoven : Woven incoming)
    (incomingOwned : ∀ side, ∀ params ∈ incoming (.share side), OwnsGrain ids side params)
    (killsWoven : Woven kills)
    (killsOwned : ∀ side, ∀ req ∈ kills (.share side), OwnsKill ids side req) :
    Choir ids (fun part => roused sampleRate (incoming part) (kills part) (voices part)) := by
  have enlisted := incomingWoven.foldl (Engine.enlist sampleRate) incomingOwned (Choir ids)
    (fun _ _ _ own held => held.enlist apart sampleRate own) choir
  exact killsWoven.foldl _ killsOwned (Choir ids) (fun _ _ _ own held => held.kill own) enlisted

end Choir

end Engine
end Rfofs
