import Rfofs.Engine.Engine

namespace Rfofs
namespace Engine

open Foundation
open Grain

/-!
# The roster of a pool

The pool keeps its grains under recycled keys, and the map of ids stores such keys.
The roster is what the two are for: the active grains in the order of spawning, each
with a mark that says whether a kill request for its id reaches it.  A new grain takes
the mark of its id over; a kill goes to the marked grain; and when grains die, every
mark of their ids is lost, also that of a survivor.

`Represents` ties an engine to its roster.  The keys of the grains are written beside
them, in the order of spawning, and no operation of the roster looks at them.
-/

variable {R : Type*}

/-- An active grain, and whether the map of ids leads to it.  The key of the pool is kept
beside it, in the slots. -/
structure Voice (R : Type*) where
  grain : FofState R
  marked : Bool

def Voice.id (voice : Voice R) : Nat := voice.grain.params.id

/-- Take the marks of some ids away.  The grains are not touched. -/
def Voice.unmark (ids : List Nat) (voice : Voice R) : Voice R :=
  if voice.id ∈ ids then { voice with marked := false } else voice

theorem Voice.unmark_grain (ids : List Nat) (voice : Voice R) :
    (voice.unmark ids).grain = voice.grain := by
  unfold unmark
  split <;> rfl

theorem Voice.unmark_id (ids : List Nat) (voice : Voice R) : (voice.unmark ids).id = voice.id := by
  rw [id, unmark_grain]
  rfl

theorem Voice.unmark_marked (ids : List Nat) (voice : Voice R) :
    (voice.unmark ids).marked = true ↔ voice.marked = true ∧ voice.id ∉ ids := by
  unfold unmark
  split
  · rename_i listed
    simp [listed]
  · rename_i listed
    simp [listed]

/-- The ids that leave the map with the dead grains. -/
def deadIds (voices : List (Voice R)) : List Nat :=
  (voices.filter (fun voice => decide (voice.grain.phase = .dead))).map Voice.id

/-- Drop the dead grains and the marks of their ids.  A living grain loses its mark when a
dead one had its id. -/
def sweep (voices : List (Voice R)) : List (Voice R) :=
  (voices.filter (fun voice => decide (voice.grain.phase ≠ .dead))).map
    (Voice.unmark (deadIds voices))

section Voices

variable [Field R] [LinearOrder R] [FloorRing R] [RealOps R]

/-- A new voice is marked if it has an id. -/
def Voice.spawn (sampleRate : R) (params : FofParams R) : Voice R where
  grain := FofState.spawn params sampleRate
  marked := decide (params.id ≠ 0)

/-- A kill changes the grain of a marked voice with its id. -/
def Voice.kill (req : FofKillRequest R) (voice : Voice R) : Voice R :=
  if voice.marked ∧ voice.id = req.id then
    { voice with grain := voice.grain.triggerFadeOut req.fadeDur }
  else
    voice

def Voice.fill (blockStart blockSize : Nat) (voice : Voice R) : Voice R :=
  { voice with grain := (voice.grain.fillBlock blockStart (List.replicate blockSize 0)).1 }

/-- A new grain takes over the mark of its id.  The older grain stays in the roster. -/
def enlist (sampleRate : R) (voices : List (Voice R)) (params : FofParams R) : List (Voice R) :=
  voices.map (Voice.unmark [params.id]) ++ [Voice.spawn sampleRate params]

/-- The voices just before a block is rendered: the new ones have been enlisted, and the kills
have been applied to old and new ones. -/
def roused (sampleRate : R) (incoming : List (FofParams R)) (kills : List (FofKillRequest R))
    (voices : List (Voice R)) : List (Voice R) :=
  kills.foldl (fun voices req => voices.map (Voice.kill req))
    (incoming.foldl (enlist sampleRate) voices)

theorem Voice.kill_marked (req : FofKillRequest R) (voice : Voice R) :
    (voice.kill req).marked = voice.marked := by
  unfold kill
  split <;> rfl

theorem Voice.kill_id (req : FofKillRequest R) (voice : Voice R) :
    (voice.kill req).id = voice.id := by
  unfold kill
  split
  · exact congrArg (fun c : FofConstants R => c.params.id)
      (voice.grain.triggerFadeOut_constants req.fadeDur)
  · rfl

theorem Voice.fill_id (blockStart blockSize : Nat) (voice : Voice R) :
    (voice.fill blockStart blockSize).id = voice.id :=
  congrArg (fun c : FofConstants R => c.params.id)
    (voice.grain.fillBlock_constants blockStart _)

end Voices

/-! ## Engines and rosters -/

/-- The pool holds the grains of the roster under their keys, and the map of ids leads
to the marked ones. -/
structure Represents (engine : RfofsEngine R) (slots : List (Nat × Voice R)) : Prop where
  entries : engine.active.entries.Perm (slots.map (fun slot => (slot.1, slot.2.grain)))
  idMap : ∀ id key, engine.idMap id = some key ↔
    ∃ voice, (key, voice) ∈ slots ∧ voice.marked = true ∧ voice.id = id
  nonzero : ∀ slot ∈ slots, slot.2.marked = true → slot.2.id ≠ 0

namespace Represents

variable {engine : RfofsEngine R} {slots : List (Nat × Voice R)}

theorem values (represents : Represents engine slots) :
    engine.active.values.Perm (slots.map (fun slot => slot.2.grain)) := by
  have mapped := represents.entries.map Prod.snd
  rwa [List.map_map] at mapped

theorem keys (represents : Represents engine slots) :
    engine.active.keys.Perm (slots.map Prod.fst) := by
  have mapped := represents.entries.map Prod.fst
  rwa [List.map_map] at mapped

theorem activeCount (represents : Represents engine slots) :
    engine.activeCount = slots.length := by
  have same := represents.values.length_eq
  rwa [List.length_map] at same

theorem keys_nodup (represents : Represents engine slots) : (slots.map Prod.fst).Nodup := by
  rw [← represents.keys.nodup_iff]
  exact (List.pairwise_map.mpr engine.active.sorted).imp (fun below => Nat.ne_of_lt below)

/-- A key has one voice. -/
theorem unique (represents : Represents engine slots) {key : Nat} {voice other : Voice R}
    (member : (key, voice) ∈ slots) (otherMember : (key, other) ∈ slots) : voice = other :=
  congrArg Prod.snd (List.inj_on_of_nodup_map represents.keys_nodup member otherMember rfl)

/-- The map of ids knows grains of the pool only.  The marks say which ones. -/
theorem tracked (represents : Represents engine slots) :
    Tracked engine.active engine.idMap := by
  intro id key known
  rcases (represents.idMap id key).mp known with ⟨voice, member, marked, rfl⟩
  refine ⟨represents.nonzero _ member marked, voice.grain, ?_, rfl⟩
  exact represents.entries.mem_iff.mpr (List.mem_map_of_mem (f := fun slot : Nat × Voice R =>
    (slot.1, slot.2.grain)) member)

/-- Changes outside the pool and the map do not matter. -/
theorem frame (represents : Represents engine slots) {next : RfofsEngine R}
    (active : next.active = engine.active) (idMap : next.idMap = engine.idMap) :
    Represents next slots :=
  ⟨active ▸ represents.entries, idMap ▸ represents.idMap, represents.nonzero⟩

end Represents

theorem new_represents (sampleRate : R) (panMode : PanMode)
    (wheels : List (Queue.TimeWheelConsumer R)) (killRx : Queue.KillQueueConsumer R) :
    Represents (RfofsEngine.new sampleRate panMode wheels killRx) [] where
  entries := List.Perm.refl _
  idMap := by simp [RfofsEngine.new]
  nonzero := nofun

/-! ## One operation of the engine -/

/-- Change every voice and leave the keys. -/
def eachVoice (f : Voice R → Voice R) (slots : List (Nat × Voice R)) : List (Nat × Voice R) :=
  slots.map (fun slot => (slot.1, f slot.2))

theorem mem_eachVoice {f : Voice R → Voice R} {slots : List (Nat × Voice R)} {key : Nat}
    {voice : Voice R} :
    (key, voice) ∈ eachVoice f slots ↔ ∃ old, (key, old) ∈ slots ∧ f old = voice := by
  simp only [eachVoice, List.mem_map, Prod.mk.injEq, Prod.exists]
  constructor
  · rintro ⟨other, old, member, rfl, same⟩
    exact ⟨old, member, same⟩
  · rintro ⟨old, member, same⟩
    exact ⟨key, old, member, rfl, same⟩

theorem eachVoice_keys (f : Voice R → Voice R) (slots : List (Nat × Voice R)) :
    (eachVoice f slots).map Prod.fst = slots.map Prod.fst := by
  rw [eachVoice, List.map_map]
  rfl

theorem eachVoice_voices (f : Voice R → Voice R) (slots : List (Nat × Voice R)) :
    (eachVoice f slots).map Prod.snd = (slots.map Prod.snd).map f := by
  rw [eachVoice, List.map_map, List.map_map]
  rfl

section Operations

variable {engine : RfofsEngine R} {slots : List (Nat × Voice R)}

/-- An operation that keeps every mark and every id leaves the map alone.  Rendering is of
this kind. -/
theorem Represents.each (represents : Represents engine slots) {f : Voice R → Voice R}
    (marked : ∀ slot ∈ slots, (f slot.2).marked = slot.2.marked)
    (id : ∀ slot ∈ slots, (f slot.2).id = slot.2.id) {next : RfofsEngine R}
    (entries : next.active.entries.Perm
      (slots.map (fun slot => (slot.1, (f slot.2).grain))))
    (idMap : next.idMap = engine.idMap) : Represents next (eachVoice f slots) := by
  refine ⟨?_, ?_, ?_⟩
  · rw [eachVoice, List.map_map]
    exact entries
  · intro known key
    rw [idMap, represents.idMap]
    constructor
    · rintro ⟨voice, member, mark, same⟩
      refine ⟨f voice, mem_eachVoice.mpr ⟨voice, member, rfl⟩, ?_, ?_⟩
      · rw [marked _ member, mark]
      · rw [id _ member, same]
    · rintro ⟨voice, member, mark, same⟩
      rcases mem_eachVoice.mp member with ⟨old, oldMember, rfl⟩
      refine ⟨old, oldMember, ?_, ?_⟩
      · rw [← marked _ oldMember, mark]
      · rw [← id _ oldMember, same]
  · rintro ⟨key, voice⟩ member mark
    rcases mem_eachVoice.mp member with ⟨old, oldMember, rfl⟩
    change (f old).id ≠ 0
    rw [id _ oldMember]
    apply represents.nonzero _ oldMember
    rw [← marked _ oldMember]
    exact mark

/-- The voices that keep their marks are the marked ones with another id. -/
theorem exists_unmarked (ids : List Nat) (slots : List (Nat × Voice R)) (id key : Nat) :
    (∃ voice, (key, voice) ∈ eachVoice (Voice.unmark ids) slots ∧ voice.marked = true ∧
        voice.id = id) ↔
      id ∉ ids ∧ ∃ voice, (key, voice) ∈ slots ∧ voice.marked = true ∧ voice.id = id := by
  constructor
  · rintro ⟨voice, member, mark, ident⟩
    rcases mem_eachVoice.mp member with ⟨old, oldMember, rfl⟩
    rw [Voice.unmark_marked] at mark
    rw [Voice.unmark_id] at ident
    exact ⟨ident ▸ mark.2, old, oldMember, mark.1, ident⟩
  · rintro ⟨fresh, voice, member, mark, ident⟩
    refine ⟨voice.unmark ids, mem_eachVoice.mpr ⟨voice, member, rfl⟩, ?_, ?_⟩
    · exact (voice.unmark_marked ids).mpr ⟨mark, ident ▸ fresh⟩
    · rw [Voice.unmark_id]
      exact ident

theorem unmarked_nonzero (ids : List Nat) {slots : List (Nat × Voice R)}
    (nonzero : ∀ slot ∈ slots, slot.2.marked = true → slot.2.id ≠ 0) :
    ∀ slot ∈ eachVoice (Voice.unmark ids) slots, slot.2.marked = true → slot.2.id ≠ 0 := by
  rintro ⟨key, voice⟩ member mark
  rcases mem_eachVoice.mp member with ⟨old, oldMember, rfl⟩
  exact old.unmark_id ids ▸ nonzero _ oldMember ((old.unmark_marked ids).mp mark).1

theorem Represents.mem_deadIds (represents : Represents engine slots) (id : Nat) :
    id ∈ (engine.active.values.filter (fun grain => decide (grain.phase = .dead))).map
      (fun grain => grain.params.id) ↔ id ∈ deadIds (slots.map Prod.snd) := by
  have same := ((represents.values.filter (fun grain => decide (grain.phase = .dead))).map
    (fun grain => grain.params.id)).mem_iff (a := id)
  rw [same]
  simp only [deadIds, List.filter_map, List.map_map]
  rfl

/-- The slots after a sweep. -/
def sweptSlots (slots : List (Nat × Voice R)) : List (Nat × Voice R) :=
  eachVoice (Voice.unmark (deadIds (slots.map Prod.snd)))
    (slots.filter (fun slot => decide (slot.2.grain.phase ≠ .dead)))

theorem sweptSlots_voices (slots : List (Nat × Voice R)) :
    (sweptSlots slots).map Prod.snd = sweep (slots.map Prod.snd) := by
  rw [sweptSlots, eachVoice_voices, sweep, List.filter_map]
  rfl

/-- Where nobody is dead a sweep changes nothing. -/
theorem sweptSlots_alive {slots : List (Nat × Voice R)}
    (alive : ∀ slot ∈ slots, slot.2.grain.phase ≠ .dead) : sweptSlots slots = slots := by
  have kept : slots.filter (fun slot => decide (slot.2.grain.phase ≠ .dead)) = slots :=
    List.filter_eq_self.mpr (fun slot member => decide_eq_true (alive slot member))
  have none : (slots.map Prod.snd).filter
      (fun voice => decide (voice.grain.phase = .dead)) = [] := by
    apply List.filter_eq_nil_iff.mpr
    intro voice member
    rcases List.mem_map.mp member with ⟨slot, listed, rfl⟩
    rw [decide_eq_true_eq]
    exact alive slot listed
  have same : ∀ voice : Voice R, voice.unmark [] = voice := fun _ => if_neg List.not_mem_nil
  rw [sweptSlots, kept, deadIds, none, List.map_nil, eachVoice]
  simp only [same]
  exact List.map_id slots

/-- What is left after a sweep was there before, and is not dead. -/
theorem mem_sweptSlots {slots : List (Nat × Voice R)} {slot : Nat × Voice R}
    (member : slot ∈ sweptSlots slots) :
    ∃ old, (slot.1, old) ∈ slots ∧ old.grain.phase ≠ .dead ∧ slot.2.grain = old.grain := by
  rcases mem_eachVoice.mp member with ⟨old, oldMember, same⟩
  rcases List.mem_filter.mp oldMember with ⟨listed, alive⟩
  refine ⟨old, listed, of_decide_eq_true alive, ?_⟩
  rw [← same, Voice.unmark_grain]

/-- Removing the dead grains is a sweep. -/
theorem Represents.removeDead (represents : Represents engine slots) :
    Represents engine.removeDead (sweptSlots slots) := by
  refine ⟨?_, ?_, ?_⟩
  · have kept := represents.entries.filter (fun entry => decide (entry.2.phase ≠ .dead))
    rw [List.filter_map] at kept
    rw [sweptSlots, eachVoice, List.map_map]
    refine kept.trans (List.Perm.of_eq (List.map_congr_left fun slot _ => ?_))
    exact Prod.ext rfl (slot.2.unmark_grain _).symm
  · intro id key
    rw [sweptSlots, exists_unmarked]
    change List.foldl forget engine.idMap _ id = some key ↔ _
    rw [forget_foldl]
    constructor
    · intro mapped
      split at mapped
      · cases mapped
      · rename_i remembered
        rcases (represents.idMap id key).mp mapped with ⟨voice, member, mark, rfl⟩
        have live : voice.id ∉ deadIds (slots.map Prod.snd) := fun lost => remembered
          ⟨represents.nonzero _ member mark, (represents.mem_deadIds _).mpr lost⟩
        refine ⟨live, voice, List.mem_filter.mpr ⟨member, ?_⟩, mark, rfl⟩
        rw [decide_eq_true_eq]
        intro dead
        exact live (List.mem_map_of_mem (List.mem_filter.mpr
          ⟨List.mem_map_of_mem member, decide_eq_true dead⟩))
    · rintro ⟨live, voice, member, mark, ident⟩
      rw [if_neg (fun both => live ((represents.mem_deadIds id).mp both.2)), represents.idMap]
      exact ⟨voice, List.mem_of_mem_filter member, mark, ident⟩
  · exact unmarked_nonzero _ (fun slot member => represents.nonzero slot
      (List.mem_of_mem_filter member))

variable [Field R] [LinearOrder R] [FloorRing R] [RealOps R]

theorem Represents.fill (represents : Represents engine slots) (blockStart blockSize : Nat)
    (outputs : List (List R)) :
    Represents (engine.render blockStart blockSize outputs).1
      (eachVoice (Voice.fill blockStart blockSize) slots) := by
  refine represents.each (fun _ _ => rfl) (fun slot _ => slot.2.fill_id blockStart blockSize)
    ?_ rfl
  have filled := represents.entries.map (fun entry : Nat × FofState R =>
    (entry.1, (entry.2.fillBlock blockStart (List.replicate blockSize 0)).1))
  rwa [List.map_map] at filled

/-- Spawning is enlisting, under a key that the pool chooses. -/
theorem Represents.spawn (represents : Represents engine slots) (choice : KeyChoice)
    (params : FofParams R) :
    Represents (engine.spawn choice params) (eachVoice (Voice.unmark [params.id]) slots ++
      [(choice.pick engine.active.keys, Voice.spawn engine.sampleRate params)]) := by
  have unused := choice.fresh engine.active.keys
  have split : ∀ id key, (∃ voice, (key, voice) ∈ eachVoice (Voice.unmark [params.id]) slots ++
      [(choice.pick engine.active.keys, Voice.spawn engine.sampleRate params)] ∧
        voice.marked = true ∧ voice.id = id) ↔
      (id ≠ params.id ∧ engine.idMap id = some key) ∨
        (params.id ≠ 0 ∧ id = params.id ∧ key = choice.pick engine.active.keys) := by
    intro id key
    have singleton : id ≠ params.id ↔ id ∉ [params.id] := List.mem_singleton.not.symm
    rw [represents.idMap, singleton, ← exists_unmarked]
    simp only [List.mem_append, List.mem_singleton, Prod.mk.injEq]
    constructor
    · rintro ⟨voice, member | ⟨same, rfl⟩, mark, ident⟩
      · exact Or.inl ⟨voice, member, mark, ident⟩
      · exact Or.inr ⟨of_decide_eq_true mark, ident.symm, same⟩
    · rintro (⟨voice, member, mark, ident⟩ | ⟨nonzero, rfl, rfl⟩)
      · exact ⟨voice, Or.inl member, mark, ident⟩
      · exact ⟨_, Or.inr ⟨rfl, rfl⟩, decide_eq_true nonzero, rfl⟩
  refine ⟨?_, ?_, ?_⟩
  · have inserted := engine.active.insert_perm unused (FofState.spawn params engine.sampleRate)
    have kept : (eachVoice (Voice.unmark [params.id]) slots).map
        (fun slot => (slot.1, slot.2.grain)) = slots.map (fun slot => (slot.1, slot.2.grain)) := by
      rw [eachVoice, List.map_map]
      exact List.map_congr_left (fun slot _ => Prod.ext rfl (slot.2.unmark_grain _))
    rw [List.map_append, kept]
    exact (inserted.trans (represents.entries.cons _)).trans
      (List.perm_append_singleton _ _).symm
  · intro id key
    rw [split]
    change (if params.id ≠ 0 then Function.update engine.idMap params.id _ else _) id = _ ↔ _
    by_cases zero : params.id = 0
    · rw [if_neg (not_not_intro zero)]
      have unmapped : engine.idMap id = some key → id ≠ params.id := by
        intro mapped
        rw [zero]
        exact (represents.tracked id key mapped).1
      simp only [ne_eq, zero, not_true_eq_false, false_and, or_false]
      rw [zero] at unmapped
      exact (and_iff_right_of_imp unmapped).symm
    · rw [if_pos zero]
      by_cases same : id = params.id
      · subst same
        rw [Function.update_self, Option.some.injEq]
        simp only [ne_eq, not_true_eq_false, false_and, false_or, zero, not_false_eq_true,
          true_and]
        exact eq_comm
      · rw [Function.update_of_ne same]
        simp only [ne_eq, same, not_false_eq_true, true_and, false_and, and_false, or_false]
  · intro slot member mark
    rcases List.mem_append.mp member with old | new
    · exact unmarked_nonzero _ represents.nonzero slot old mark
    · rw [List.mem_singleton.mp new] at mark ⊢
      exact of_decide_eq_true mark

/-- A kill finds its grain by the map, which is by the mark. -/
theorem Represents.kill (represents : Represents engine slots) (req : FofKillRequest R) :
    ∃ next, engine.kill req = some next ∧ engine.Frame next ∧
      Represents next (eachVoice (Voice.kill req) slots) := by
  have marked := fun (slot : Nat × Voice R) (_ : slot ∈ slots) => slot.2.kill_marked req
  have id := fun (slot : Nat × Voice R) (_ : slot ∈ slots) => slot.2.kill_id req
  cases known : engine.idMap req.id with
  | none =>
      refine ⟨engine, by simp only [RfofsEngine.kill, known], RfofsEngine.Frame.refl engine,
        represents.each marked id ?_ rfl⟩
      refine represents.entries.trans (List.Perm.of_eq (List.map_congr_left ?_))
      rintro ⟨key, voice⟩ member
      have unheard : ¬ (voice.marked ∧ voice.id = req.id) := by
        intro heard
        have found := (represents.idMap req.id key).mpr ⟨voice, member, heard⟩
        rw [known] at found
        cases found
      rw [Voice.kill, if_neg unheard]
  | some idx =>
      have present := represents.tracked.key_mem known
      refine ⟨{ engine with
          active := engine.active.modify idx (fun grain => grain.triggerFadeOut req.fadeDur) },
        by simp only [RfofsEngine.kill, known, if_pos present], ⟨rfl, rfl, rfl, rfl, rfl⟩,
        represents.each marked id ?_ rfl⟩
      rcases (represents.idMap req.id idx).mp known with ⟨target, targetMember, heard⟩
      have changed := represents.entries.map (fun entry : Nat × FofState R =>
        (entry.1, if entry.1 = idx then entry.2.triggerFadeOut req.fadeDur else entry.2))
      rw [List.map_map] at changed
      refine changed.trans (List.Perm.of_eq (List.map_congr_left ?_))
      rintro ⟨key, voice⟩ member
      by_cases same : key = idx
      · subst same
        have unique := represents.unique member targetMember
        subst unique
        simp only [Function.comp_apply, if_true, Voice.kill, if_pos heard]
      · have unheard : ¬ (voice.marked ∧ voice.id = req.id) := by
          intro heard
          have found := (represents.idMap req.id key).mpr ⟨voice, member, heard⟩
          rw [known] at found
          exact same (Option.some.inj found).symm
        simp only [Function.comp_apply, if_neg same, Voice.kill, if_neg unheard]

end Operations

/-! ## One block -/

section Blocks

variable [Field R] [LinearOrder R] [FloorRing R] [RealOps R]

/-- The keys under which requests are spawned. -/
def spawnKeys (choice : KeyChoice) : RfofsEngine R → List (FofParams R) → List Nat
  | _, [] => []
  | engine, params :: requests =>
      choice.pick engine.active.keys :: spawnKeys choice (engine.spawn choice params) requests

namespace RfofsEngine

/-- The engine behind its drained queues.  Nothing has been spawned yet. -/
def drained (engine : RfofsEngine R) (blockSize : Nat) : RfofsEngine R :=
  { engine with
    wheels := (drainWheels engine.sampleClock blockSize engine.wheels []).1
    killRx := (engine.killRx.drainAll []).1 }

/-- The kill requests that wait for the next block. -/
def pendingKills (engine : RfofsEngine R) : List (FofKillRequest R) :=
  (engine.killRx.drainAll []).2

/-- The engine just before a block is rendered.  It is where the kills can panic, if anywhere. -/
def ready (choice : KeyChoice) (engine : RfofsEngine R) (blockSize : Nat) :
    Option (RfofsEngine R) :=
  engine.pendingKills.foldlM kill
    ((engine.incoming blockSize).foldl (spawn choice) (engine.drained blockSize))

/-- The engine behind a block, rendered from the engine just before.  The dead grains have
been removed. -/
def finish (engine : RfofsEngine R) (blockSize : Nat) (outputs : List (List R)) :
    RfofsEngine R × List (List R) :=
  let rendered := engine.render engine.sampleClock blockSize outputs
  ({ rendered.1.removeDead with sampleClock := engine.sampleClock + blockSize }, rendered.2)

end RfofsEngine

variable {engine : RfofsEngine R} {slots : List (Nat × Voice R)}

theorem Represents.spawn_foldl (represents : Represents engine slots) (choice : KeyChoice)
    (requests : List (FofParams R)) :
    ∃ next, Represents (requests.foldl (RfofsEngine.spawn choice) engine) next ∧
      engine.Frame (requests.foldl (RfofsEngine.spawn choice) engine) ∧
      next.map Prod.fst = slots.map Prod.fst ++ spawnKeys choice engine requests ∧
      next.map Prod.snd = requests.foldl (enlist engine.sampleRate) (slots.map Prod.snd) := by
  induction requests generalizing engine slots with
  | nil => exact ⟨slots, represents, RfofsEngine.Frame.refl engine, (List.append_nil _).symm, rfl⟩
  | cons params requests ih =>
      rcases ih (represents.spawn choice params) with ⟨next, done, frame, keys, voices⟩
      have first : engine.Frame (engine.spawn choice params) := ⟨rfl, rfl, rfl, rfl, rfl⟩
      refine ⟨next, done, first.trans frame, ?_, ?_⟩
      · rw [keys, List.map_append, eachVoice_keys, List.append_assoc]
        rfl
      · rw [voices, List.map_append, eachVoice_voices]
        rfl

theorem Represents.kill_foldlM (represents : Represents engine slots)
    (requests : List (FofKillRequest R)) :
    ∃ killed next, requests.foldlM RfofsEngine.kill engine = some killed ∧
      engine.Frame killed ∧ Represents killed next ∧ next.map Prod.fst = slots.map Prod.fst ∧
      next.map Prod.snd = requests.foldl (fun voices req => voices.map (Voice.kill req))
        (slots.map Prod.snd) := by
  induction requests generalizing engine slots with
  | nil => exact ⟨engine, slots, rfl, RfofsEngine.Frame.refl engine, represents, rfl, rfl⟩
  | cons req requests ih =>
      rcases represents.kill req with ⟨middle, first, frame, middleRepresents⟩
      rcases ih middleRepresents with ⟨killed, next, rest, later, done, keys, voices⟩
      refine ⟨killed, next, ?_, frame.trans later, done, ?_, ?_⟩
      · rw [List.foldlM_cons, first]
        exact rest
      · rw [keys, eachVoice_keys]
      · rw [voices, eachVoice_voices]
        rfl

theorem Represents.ready (represents : Represents engine slots) (choice : KeyChoice)
    (blockSize : Nat) :
    ∃ ready next, engine.ready choice blockSize = some ready ∧
      (engine.drained blockSize).Frame ready ∧ Represents ready next ∧
      next.map Prod.fst = slots.map Prod.fst ++
        spawnKeys choice (engine.drained blockSize) (engine.incoming blockSize) ∧
      next.map Prod.snd = roused engine.sampleRate (engine.incoming blockSize)
        engine.pendingKills (slots.map Prod.snd) := by
  have drained : Represents (engine.drained blockSize) slots := represents.frame rfl rfl
  rcases drained.spawn_foldl choice (engine.incoming blockSize) with
    ⟨middle, spawned, frame, keys, voices⟩
  rcases spawned.kill_foldlM engine.pendingKills with
    ⟨ready, next, killed, later, done, sameKeys, killedVoices⟩
  refine ⟨ready, next, killed, frame.trans later, done, sameKeys.trans keys, ?_⟩
  rw [killedVoices, voices]
  rfl

/-- A block is rendered from the engine just before it.  This cuts `processBlock` in two. -/
theorem RfofsEngine.processBlock_eq {choice : KeyChoice} {ready : RfofsEngine R}
    {blockSize : Nat} (prepared : engine.ready choice blockSize = some ready)
    (clock : ready.sampleClock = engine.sampleClock) (outputs : List (List R)) :
    engine.processBlock choice outputs blockSize = some (ready.finish blockSize outputs) := by
  refine Option.map_eq_some_iff.mpr ⟨ready, prepared, ?_⟩
  rw [finish, clock]

theorem Represents.finish (represents : Represents engine slots) (blockSize : Nat)
    (outputs : List (List R)) :
    Represents (engine.finish blockSize outputs).1
      (sweptSlots (eachVoice (Voice.fill engine.sampleClock blockSize) slots)) :=
  (represents.fill engine.sampleClock blockSize outputs).removeDead.frame rfl rfl

end Blocks

end Engine
end Rfofs
