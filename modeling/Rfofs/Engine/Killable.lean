import Rfofs.Engine.Relocation
import Rfofs.Grain.FadeEnd

namespace Rfofs
namespace Engine

open Foundation
open Grain
open Queue

/-!
# Which grains a kill reaches

The map of ids holds one key for each id, and clients may use an id twice.  The map then
follows the newest grain, and a grain that dies takes the entry of its id along, whoever
the entry belongs to.

The order of spawning is written beside the engine (`Watched`); the engine does not read
it.  `Killable` asks that the map leads from every nonzero id in use to the newest active
grain with that id.  On the roster this says that the newest voice of every id is marked
(`Led`).  Spawning and killing keep that, and a block keeps it exactly when the grains
that share an id die together.
-/

variable {R : Type*}

/-- An engine, and beside it the keys of its active grains in the order of spawning.  The pool
itself does not remember this order. -/
structure Watched (R : Type*) where
  engine : RfofsEngine R
  order : List Nat

/-- The key of the active grain with an id that was spawned last.  Kills by this id should
reach this grain. -/
def Watched.latest (w : Watched R) (id : Nat) : Option Nat :=
  (w.order.filter (fun key => (w.engine.active.get? key).any
    (fun grain => decide (grain.params.id = id)))).getLast?

/-! ## Rosters in which the newest voice is marked -/

/-- The newest voice of every nonzero id is marked.  A mark stands for an entry of the id map. -/
def Led (voices : List (Voice R)) : Prop :=
  ∀ id, id ≠ 0 → ∀ voice,
    (voices.filter (fun voice => decide (voice.id = id))).getLast? = some voice →
      voice.marked = true

theorem Led.empty : Led ([] : List (Voice R)) := nofun

theorem led_each {f : Voice R → Voice R} (marked : ∀ voice, (f voice).marked = voice.marked)
    (ident : ∀ voice, (f voice).id = voice.id) {voices : List (Voice R)} (led : Led voices) :
    Led (voices.map f) := by
  intro id nonzero voice last
  have same : (fun voice : Voice R => decide (voice.id = id)) ∘ f =
      fun voice => decide (voice.id = id) := by
    funext voice
    rw [Function.comp_apply, ident]
  rw [List.filter_map, same, List.getLast?_map] at last
  rcases Option.map_eq_some_iff.mp last with ⟨old, found, rfl⟩
  rw [marked]
  exact led id nonzero old found

/-- Taking marks away, from the point of view of an id that keeps its own. -/
theorem filter_map_unmark {ids : List Nat} {id : Nat} (kept : id ∉ ids)
    (voices : List (Voice R)) :
    (voices.map (Voice.unmark ids)).filter (fun voice => decide (voice.id = id)) =
      voices.filter (fun voice => decide (voice.id = id)) := by
  induction voices with
  | nil => rfl
  | cons voice voices ih =>
      rw [List.map_cons, List.filter_cons, List.filter_cons, ih, voice.unmark_id]
      by_cases here : voice.id = id
      · have same : voice.unmark ids = voice := if_neg (here ▸ kept)
        rw [same]
      · simp only [here, decide_false, Bool.false_eq_true, if_false]

/-- A sweep keeps the newest voices marked exactly when no survivor shares its id with a
grain that died. -/
theorem led_sweep_iff {voices : List (Voice R)} (led : Led voices) :
    Led (sweep voices) ↔ ∀ voice ∈ voices, voice.grain.phase ≠ .dead → voice.id ≠ 0 →
      voice.id ∉ deadIds voices := by
  constructor
  · intro swept voice member alive nonzero lost
    have listed : voice.unmark (deadIds voices) ∈
        (sweep voices).filter (fun other => decide (other.id = voice.id)) := by
      refine List.mem_filter.mpr ⟨List.mem_map_of_mem (List.mem_filter.mpr
        ⟨member, decide_eq_true alive⟩), decide_eq_true (voice.unmark_id _)⟩
    have present := List.getLast?_isSome.mpr (List.ne_nil_of_mem listed)
    rcases Option.isSome_iff_exists.mp present with ⟨newest, last⟩
    have mark := swept voice.id nonzero newest last
    have found := List.mem_filter.mp (List.mem_of_getLast? last)
    rcases List.mem_map.mp found.1 with ⟨old, _, rfl⟩
    have ident : old.id = voice.id := (old.unmark_id _).symm.trans (of_decide_eq_true found.2)
    exact ((old.unmark_marked _).mp mark).2 (ident ▸ lost)
  · intro apart id nonzero voice last
    have found := List.mem_filter.mp (List.mem_of_getLast? last)
    rcases List.mem_map.mp found.1 with ⟨survivor, kept, same⟩
    have ident : survivor.id = id := by
      rw [← of_decide_eq_true found.2, ← same, Voice.unmark_id]
    rcases List.mem_filter.mp kept with ⟨member, alive⟩
    have live : id ∉ deadIds voices :=
      ident ▸ apart survivor member (of_decide_eq_true alive) (ident ▸ nonzero)
    have whole : (voices.filter (fun voice => decide (voice.grain.phase ≠ .dead))).filter
        (fun voice => decide (voice.id = id)) = voices.filter (fun voice => decide (voice.id = id)) := by
      rw [List.filter_filter]
      apply List.filter_congr
      intro other otherMember
      by_cases here : other.id = id
      · have standing : other.grain.phase ≠ .dead := fun dead => live (here ▸ List.mem_map_of_mem
          (List.mem_filter.mpr ⟨otherMember, decide_eq_true dead⟩))
        simp [here, standing]
      · simp [here]
    rw [sweep, filter_map_unmark live, whole] at last
    exact led id nonzero voice last

/-! ## Engines and their rosters -/

section Calls

variable [Field R] [LinearOrder R] [FloorRing R] [RealOps R]

theorem led_enlist (sampleRate : R) {voices : List (Voice R)} (led : Led voices)
    (params : FofParams R) : Led (enlist sampleRate voices params) := by
  intro id nonzero voice last
  rw [enlist, List.filter_append] at last
  by_cases same : params.id = id
  · have new : [Voice.spawn sampleRate params].filter (fun voice => decide (voice.id = id)) =
        [Voice.spawn sampleRate params] := List.filter_cons_of_pos (decide_eq_true same)
    rw [new, List.getLast?_concat, Option.some.injEq] at last
    rw [← last]
    exact decide_eq_true (same ▸ nonzero)
  · have old : [Voice.spawn sampleRate params].filter (fun voice => decide (voice.id = id)) = [] :=
      List.filter_cons_of_neg (fun found => same (of_decide_eq_true found))
    have kept : id ∉ [params.id] := fun listed => same (List.mem_singleton.mp listed).symm
    rw [old, List.append_nil, filter_map_unmark kept] at last
    exact led id nonzero voice last

/-- Spawning and killing keep the newest voices marked.  Only the removal of dead grains can
take a mark away. -/
theorem led_roused (sampleRate : R) (incoming : List (FofParams R))
    (kills : List (FofKillRequest R)) {voices : List (Voice R)} (led : Led voices) :
    Led (roused sampleRate incoming kills voices) := by
  refine List.foldlRecOn kills _ (motive := Led) ?_ ?_
  · exact List.foldlRecOn incoming _ (motive := Led) led
      (fun _ led params _ => led_enlist sampleRate led params)
  · exact fun _ led req _ => led_each (Voice.kill_marked req) (Voice.kill_id req) led

namespace Watched

/-- The keys of a block, before the dead grains are taken out. -/
def spawnOrder (w : Watched R) (choice : KeyChoice) (blockSize : Nat) : List Nat :=
  w.order ++ spawnKeys choice (w.engine.drained blockSize) (w.engine.incoming blockSize)

def call (w : Watched R) : EngineCall R → Option (Watched R)
  | .clock sample => (w.engine.call (.clock sample)).map (fun next => ⟨next, w.order⟩)
  | .submit index params => (w.engine.call (.submit index params)).map (fun next => ⟨next, w.order⟩)
  | .kill req => (w.engine.call (.kill req)).map (fun next => ⟨next, w.order⟩)
  | .block choice outputs blockSize =>
      (w.engine.call (.block choice outputs blockSize)).map (fun next =>
        ⟨next, (w.spawnOrder choice blockSize).filter
          (fun key => decide (key ∈ next.active.keys))⟩)

def run (w : Watched R) (calls : List (EngineCall R)) : Option (Watched R) := calls.foldlM call w

theorem run_cons {w next : Watched R} {call : EngineCall R} (called : w.call call = some next)
    (calls : List (EngineCall R)) : w.run (call :: calls) = next.run calls := by
  rw [run, List.foldlM_cons, called]
  rfl

/-- The engine of a watched run is the engine of the run.  Watching adds nothing that the
program could read. -/
theorem run_engine (w : Watched R) (calls : List (EngineCall R)) :
    (w.run calls).map Watched.engine = w.engine.run calls := by
  induction calls generalizing w with
  | nil => rfl
  | cons call calls ih =>
      have one : (w.call call).map Watched.engine = w.engine.call call := by
        cases call <;> rw [Watched.call, Option.map_map] <;> exact Option.map_id_apply
      rw [run, List.foldlM_cons, RfofsEngine.run, List.foldlM_cons, ← one]
      cases w.call call with
      | none => rfl
      | some next => exact ih next

end Watched

/-- The grains that share a nonzero id in a block die together: going by their counters
just before they are rendered, either all of them or none reach the end of their fade-out
within the samples that the block has behind their onsets. -/
def RfofsEngine.DieTogether (engine : RfofsEngine R) (choice : KeyChoice) (blockSize : Nat) :
    Prop :=
  ∀ ready, engine.ready choice blockSize = some ready →
    ∀ grain ∈ ready.active.values, ∀ other ∈ ready.active.values,
      grain.params.id ≠ 0 → other.params.id = grain.params.id →
        other.DiesWithin (blockSize - (other.params.startSample - engine.sampleClock)) →
          grain.DiesWithin (blockSize - (grain.params.startSample - engine.sampleClock))

/-- A watched engine with its roster.  The keys of the roster are the watched ones, in the
same order. -/
structure Keeps (w : Watched R) (slots : List (Nat × Voice R)) : Prop where
  sound : Sound w.engine slots
  order : w.order = slots.map Prod.fst
  counted : ∀ voice ∈ slots.map Prod.snd, voice.grain.Counted

namespace Keeps

variable {w : Watched R} {slots : List (Nat × Voice R)}

theorem roused_counted (keeps : Keeps w slots) (blockSize : Nat) :
    ∀ voice ∈ roused w.engine.sampleRate (w.engine.incoming blockSize) w.engine.pendingKills
      (slots.map Prod.snd), voice.grain.Counted :=
  roused_forall keeps.counted (fun params _ => FofState.Counted.spawn params _)
    (fun _ fadeDur counted => counted.call (.triggerFadeOut fadeDur))

/-- The grains of a rendered roster die together as `DieTogether` says.  The left side speaks
of the engine, the right side of its roster. -/
theorem dieTogether_iff (keeps : Keeps w slots) (choice : KeyChoice) (blockSize : Nat) :
    let filled := (roused w.engine.sampleRate (w.engine.incoming blockSize)
      w.engine.pendingKills (slots.map Prod.snd)).map (Voice.fill w.engine.sampleClock blockSize)
    (∀ voice ∈ filled, voice.grain.phase ≠ .dead → voice.id ≠ 0 → voice.id ∉ deadIds filled) ↔
      w.engine.DieTogether choice blockSize := by
  intro filled
  rcases keeps.sound.block choice blockSize with
    ⟨ready, next, prepared, _, represents, _, voices, _⟩
  have dies : ∀ slot ∈ next, (Voice.fill w.engine.sampleClock blockSize slot.2).grain.phase = .dead ↔
      slot.2.grain.DiesWithin
        (blockSize - (slot.2.grain.params.startSample - w.engine.sampleClock)) := by
    intro slot member
    have counted : slot.2.grain.Counted := by
      apply keeps.roused_counted blockSize
      rw [← voices]
      exact List.mem_map_of_mem member
    have samples := FofState.fillBlock_dead_iff counted w.engine.sampleClock
      (List.replicate blockSize 0)
    rwa [FofState.samplesOf, List.length_replicate] at samples
  have held : ∀ grain, grain ∈ ready.active.values ↔ ∃ slot ∈ next, slot.2.grain = grain := by
    intro grain
    rw [represents.values.mem_iff, List.mem_map]
  have rendered : filled = next.map (fun slot => Voice.fill w.engine.sampleClock blockSize slot.2) := by
    change (roused _ _ _ _).map _ = _
    rw [← voices, List.map_map]
    rfl
  have lost : ∀ id, id ∈ deadIds filled ↔ ∃ slot ∈ next, slot.2.id = id ∧
      (Voice.fill w.engine.sampleClock blockSize slot.2).grain.phase = .dead := by
    intro id
    rw [deadIds, rendered, List.mem_map]
    constructor
    · rintro ⟨voice, member, rfl⟩
      rcases List.mem_filter.mp member with ⟨listed, dead⟩
      rcases List.mem_map.mp listed with ⟨slot, slotMember, rfl⟩
      exact ⟨slot, slotMember, (slot.2.fill_id _ _).symm, of_decide_eq_true dead⟩
    · rintro ⟨slot, member, rfl, dead⟩
      exact ⟨_, List.mem_filter.mpr ⟨List.mem_map_of_mem (f := fun slot : Nat × Voice R =>
        Voice.fill w.engine.sampleClock blockSize slot.2) member, decide_eq_true dead⟩,
        slot.2.fill_id _ _⟩
  constructor
  · intro apart same samePrepared grain grainHeld other otherHeld nonzero equal otherDies
    rw [prepared, Option.some.injEq] at samePrepared
    subst samePrepared
    rcases (held grain).mp grainHeld with ⟨slot, member, rfl⟩
    rcases (held other).mp otherHeld with ⟨otherSlot, otherMember, rfl⟩
    rw [← dies slot member]
    by_contra alive
    have ident := slot.2.fill_id w.engine.sampleClock blockSize
    have kept := apart (Voice.fill w.engine.sampleClock blockSize slot.2)
      (by rw [rendered]; exact List.mem_map_of_mem member) alive (by rw [ident]; exact nonzero)
    rw [ident, lost] at kept
    exact kept ⟨otherSlot, otherMember, equal, (dies otherSlot otherMember).mpr otherDies⟩
  · intro together voice member alive nonzero gone
    rw [rendered, List.mem_map] at member
    rcases member with ⟨slot, slotMember, rfl⟩
    rw [slot.2.fill_id] at nonzero gone
    rcases (lost _).mp gone with ⟨other, otherMember, equal, dead⟩
    exact alive ((dies slot slotMember).mpr (together ready prepared slot.2.grain
      ((held _).mpr ⟨slot, slotMember, rfl⟩) other.2.grain ((held _).mpr ⟨other, otherMember, rfl⟩)
      nonzero equal ((dies other otherMember).mp dead)))

/-- The keys that are left after a block, in their order.  Those of dead grains are filtered
out, and no other key moves. -/
theorem filter_order (keeps : Keeps w slots) {next : List (Nat × Voice R)} {final : RfofsEngine R}
    {choice : KeyChoice} {blockSize : Nat}
    (order : next.map Prod.fst = slots.map Prod.fst ++
      spawnKeys choice (w.engine.drained blockSize) (w.engine.incoming blockSize))
    (nodup : (next.map Prod.fst).Nodup) {blockStart : Nat}
    (represents : Represents final (sweptSlots (eachVoice (Voice.fill blockStart blockSize) next))) :
    (w.spawnOrder choice blockSize).filter (fun key => decide (key ∈ final.active.keys)) =
      (sweptSlots (eachVoice (Voice.fill blockStart blockSize) next)).map Prod.fst := by
  have left := represents.keys
  rw [sweptSlots, eachVoice_keys] at left ⊢
  rw [Watched.spawnOrder, keeps.order, ← order,
    ← eachVoice_keys (Voice.fill blockStart blockSize) next] at *
  rw [List.filter_map]
  congr 1
  apply List.filter_congr
  intro slot member
  rw [Function.comp_apply, decide_eq_decide, left.mem_iff, List.mem_map]
  constructor
  · rintro ⟨other, found, same⟩
    rcases List.mem_filter.mp found with ⟨otherMember, alive⟩
    rw [← List.inj_on_of_nodup_map nodup otherMember member same]
    exact of_decide_eq_true alive
  · intro alive
    exact ⟨slot, List.mem_filter.mpr ⟨member, decide_eq_true alive⟩, rfl⟩

end Keeps

/-- The grains of a block that share an id die together; other calls ask for nothing. -/
def EngineCall.Together (w : Watched R) : EngineCall R → Prop
  | .block choice _ blockSize => w.engine.DieTogether choice blockSize
  | _ => True

/-- No call panics, and across a call the newest grains stay reachable exactly when the
condition on blocks holds. -/
theorem Keeps.call {w : Watched R} {slots : List (Nat × Voice R)} (keeps : Keeps w slots)
    (call : EngineCall R) :
    ∃ next nextSlots, w.call call = some next ∧ Keeps next nextSlots ∧
      (Led (slots.map Prod.snd) → (Led (nextSlots.map Prod.snd) ↔ call.Together w)) := by
  have still : ∀ {next : RfofsEngine R}, Sound next slots → Keeps ⟨next, w.order⟩ slots :=
    fun sound => ⟨sound, keeps.order, keeps.counted⟩
  cases call with
  | clock sample =>
      exact ⟨_, slots, rfl, still ⟨keeps.sound.represents.frame rfl rfl, keeps.sound.accounted⟩,
        fun led => iff_of_true led trivial⟩
  | submit index params =>
      rcases keeps.sound.accounted.submit index params with ⟨wheels, accounted, same⟩
      refine ⟨⟨{ w.engine with wheels := wheels }, w.order⟩, slots, ?_,
        still ⟨keeps.sound.represents.frame rfl rfl, accounted⟩, fun led => iff_of_true led trivial⟩
      rw [Watched.call, RfofsEngine.call, same]
      rfl
  | kill req =>
      rcases w.engine.submitKill_getD req with ⟨killRx, same⟩
      refine ⟨⟨{ w.engine with killRx := killRx }, w.order⟩, slots, ?_,
        still ⟨keeps.sound.represents.frame rfl rfl, keeps.sound.accounted⟩,
        fun led => iff_of_true led trivial⟩
      rw [Watched.call, RfofsEngine.call, same]
      rfl
  | block choice outputs blockSize =>
      have together := keeps.dieTogether_iff choice blockSize
      rcases keeps.sound.block choice blockSize with
        ⟨ready, next, prepared, frame, represents, keys, voices, finished⟩
      rcases finished outputs with ⟨processed, done⟩
      have order := keeps.filter_order keys represents.keys_nodup done.represents
      have left : (sweptSlots (eachVoice (Voice.fill w.engine.sampleClock blockSize) next)).map
          Prod.snd = sweep ((roused w.engine.sampleRate (w.engine.incoming blockSize)
            w.engine.pendingKills (slots.map Prod.snd)).map
              (Voice.fill w.engine.sampleClock blockSize)) := by
        rw [sweptSlots_voices, eachVoice_voices, voices]
      refine ⟨⟨(ready.finish blockSize outputs).1, _⟩, _, ?_, ⟨done, order, ?_⟩, fun led => ?_⟩
      · rw [Watched.call, RfofsEngine.call, processed]
        rfl
      · intro voice member
        rw [left] at member
        rcases List.mem_map.mp member with ⟨survivor, kept, rfl⟩
        rw [Voice.unmark_grain]
        rcases List.mem_map.mp (List.mem_of_mem_filter kept) with ⟨old, oldMember, rfl⟩
        exact (keeps.roused_counted blockSize old oldMember).call
          (.fillBlock w.engine.sampleClock (List.replicate blockSize 0))
      · have filled := led_each (f := Voice.fill w.engine.sampleClock blockSize) (fun _ => rfl)
          (fun voice => voice.fill_id _ _) (led_roused w.engine.sampleRate
            (w.engine.incoming blockSize) w.engine.pendingKills led)
        rw [left, led_sweep_iff filled]
        exact together

/-- The run of a watched engine, by steps that cannot fail. -/
theorem Keeps.run {w : Watched R} {slots : List (Nat × Voice R)} (keeps : Keeps w slots)
    (calls : List (EngineCall R)) :
    w.run calls = some (calls.foldl (fun w call => (w.call call).getD w) w) := by
  induction calls generalizing w slots with
  | nil => rfl
  | cons call calls ih =>
      rcases keeps.call call with ⟨next, nextSlots, called, nextKeeps, _⟩
      rw [Watched.run_cons called, List.foldl_cons, called]
      exact ih nextKeeps

end Calls

/-! ## An id that is used twice -/

end Engine
end Rfofs
