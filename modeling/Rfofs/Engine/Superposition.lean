import Rfofs.Engine.Choir
import Rfofs.Engine.Runs
import Rfofs.Grain.SampleMachine

namespace Rfofs
namespace Engine

open Foundation
open Grain
open Queue

/-!
# Superposition of grains

Two clients share an engine, and beside it each of them has an engine of its own.  All
three are given the same clocks and blocks, and zeroed outputs.  Each client pushes in
the order of onsets, the joint order included, and the nonzero ids of the two are
disjoint.

While the joint engine refuses and rejects nothing, its outputs are the sums of the
outputs of the two, and so are its counts of active grains.  The pools choose their keys
independently of each other.
-/

variable {R : Type*}

/-! ## Pushes -/

namespace RfofsEngine

theorem submit_eq_some {engine next : RfofsEngine R} {index : Nat} {params : FofParams R} :
    engine.submit index params = some next ↔ ∃ wheel rx, engine.wheels[index]? = some wheel ∧
      wheel.rx.push params = .ok rx ∧
      next = { engine with wheels := engine.wheels.set index { wheel with rx := rx } } := by
  unfold submit TimeWheelConsumer.push
  cases engine.wheels[index]? with
  | none => simp
  | some wheel =>
      cases pushed : wheel.rx.push params with
      | ok rx => simp [pushed, eq_comm]
      | error refused => simp [pushed]

theorem submitKill_eq_some {engine next : RfofsEngine R} {req : FofKillRequest R} :
    engine.submitKill req = some next ↔ ∃ rx, engine.killRx.rx.push req = .ok rx ∧
      next = { engine with killRx := ⟨rx⟩ } := by
  unfold submitKill KillQueueConsumer.push
  cases pushed : engine.killRx.rx.push req with
  | ok rx => simp [eq_comm]
  | error refused => simp

end RfofsEngine

/-! ## Three engines -/

/-- The wheels of the three engines, in the same order.  Each triple shares its requests by
their owners. -/
def SharedWheels (ids : Side → Set Nat) (wheels : Part → List (TimeWheelConsumer R)) : Prop :=
  ∃ families : List (Part → TimeWheelConsumer R),
    (∀ part, wheels part = families.map (fun wheel => wheel part)) ∧
    ∀ wheel ∈ families, ∃ g logs, Shared (OwnsGrain ids) g logs wheel

theorem SharedWheels.accounted {ids : Side → Set Nat} {wheels : Part → List (TimeWheelConsumer R)}
    (shared : SharedWheels ids wheels) (part : Part) : Accounted (wheels part) := by
  rcases shared with ⟨families, listed, each⟩
  intro consumer member
  rw [listed part] at member
  rcases List.mem_map.mp member with ⟨wheel, found, rfl⟩
  rcases each wheel found with ⟨g, logs, wheelShared⟩
  rcases wheelShared.accounts part with ⟨fired, accounts⟩
  exact ⟨g, _, _, accounts⟩

/-- One block, over all wheels.  The fired requests of the joint engine are woven from those
of the two sides. -/
theorem SharedWheels.drain {ids : Side → Set Nat} {wheels : Part → List (TimeWheelConsumer R)}
    (shared : SharedWheels ids wheels) (sorted : ∀ wheel ∈ wheels .joint, InOrder wheel.rx.items)
    (clean : ∀ wheel ∈ wheels .joint, rejected wheel.blockVerdicts = [])
    (blockStart blockSize : Nat) :
    (∀ part, ∀ wheel ∈ wheels part, rejected wheel.blockVerdicts = []) ∧
      SharedWheels ids (fun part => (wheels part).map
        (fun wheel => (wheel.drainBlockSafe blockStart blockSize []).1)) ∧
      Woven (fun part => (wheels part).flatMap
        (fun wheel => (wheel.drainBlockSafe blockStart blockSize []).2)) ∧
      ∀ side, ∀ params ∈ (wheels (.share side)).flatMap
        (fun wheel => (wheel.drainBlockSafe blockStart blockSize []).2),
          OwnsGrain ids side params := by
  rcases shared with ⟨families, listed, each⟩
  have same : wheels = fun part => families.map (fun wheel => wheel part) := funext listed
  subst same
  have ordered : ∀ wheel ∈ families, InOrder (wheel .joint).rx.items :=
    fun wheel member => sorted _ (List.mem_map_of_mem (f := fun wheel => wheel .joint) member)
  have accepting : ∀ wheel ∈ families, rejected (wheel .joint).blockVerdicts = [] :=
    fun wheel member => clean _ (List.mem_map_of_mem (f := fun wheel => wheel .joint) member)
  refine ⟨fun part consumer member => ?_, ⟨families.map (fun wheel part =>
    ((wheel part).drainBlockSafe blockStart blockSize []).1), fun part => ?_,
    fun next member => ?_⟩, ?_, fun side params member => ?_⟩
  · rcases List.mem_map.mp member with ⟨wheel, found, rfl⟩
    rcases each wheel found with ⟨g, logs, wheelShared⟩
    exact wheelShared.accepts (ordered wheel found) (accepting wheel found) part
  · change List.map _ (List.map _ families) = _
    rw [List.map_map, List.map_map]
    rfl
  · rcases List.mem_map.mp member with ⟨wheel, found, rfl⟩
    rcases each wheel found with ⟨g, logs, wheelShared⟩
    exact ⟨g, _, (wheelShared.drain (ordered wheel found) (accepting wheel found) _ _).1⟩
  · simp only [List.flatMap_map]
    refine Interleaves.flatMap (fun wheel found => ?_)
    rcases each wheel found with ⟨g, logs, wheelShared⟩
    exact (wheelShared.drain (ordered wheel found) (accepting wheel found) _ _).2.1
  · rw [List.flatMap_map] at member
    rcases List.mem_flatMap.mp member with ⟨wheel, found, fired⟩
    rcases each wheel found with ⟨g, logs, wheelShared⟩
    exact (wheelShared.drain (ordered wheel found) (accepting wheel found) _ _).2.2 side params fired

/-- The engine of both clients, and the engine of each alone.  They have one clock, one rate
and one pan mode. -/
structure Duet (ids : Side → Set Nat) (engines : Part → RfofsEngine R) : Prop where
  sampleRate : ∀ part, (engines part).sampleRate = (engines .joint).sampleRate
  panMode : ∀ part, (engines part).panMode = (engines .joint).panMode
  sampleClock : ∀ part, (engines part).sampleClock = (engines .joint).sampleClock
  wheels : SharedWheels ids (fun part => (engines part).wheels)
  kills : SharedRing (OwnsKill ids) (fun part => (engines part).killRx.rx)
  roster : ∃ slots : Part → List (Nat × Voice R),
    (∀ part, Represents (engines part) (slots part)) ∧
    Choir ids (fun part => (slots part).map Prod.snd)

namespace Duet

variable {ids : Side → Set Nat} {engines : Part → RfofsEngine R}

theorem new (ids : Side → Set Nat) (sampleRate : R) (panMode : PanMode)
    (specs : List (Nat × Geometry × Bool)) (killCapacity : Nat) :
    Duet ids (fun _ =>
      RfofsEngine.new sampleRate panMode (freshWheels specs) (killQueue killCapacity)) where
  sampleRate := fun _ => rfl
  panMode := fun _ => rfl
  sampleClock := fun _ => rfl
  wheels := by
    refine ⟨(freshWheels specs).map (fun wheel _ => wheel), fun part => ?_, fun wheel member => ?_⟩
    · rw [List.map_map]
      exact (List.map_id _).symm
    · rcases List.mem_map.mp member with ⟨consumer, listed, rfl⟩
      rcases List.mem_map.mp listed with ⟨⟨capacity, g, recorded⟩, _, rfl⟩
      refine ⟨g, fun _ => [], Shared.fresh _ ?_ ?_⟩
      · cases recorded <;> exact new_wheelAccounts g
      · cases recorded <;> rfl
  kills := ⟨Interleaves.nil, fun _ => rfl, fun _ => nofun⟩
  roster := ⟨fun _ => [], fun _ => new_represents sampleRate panMode _ _,
    ⟨Interleaves.nil, fun _ => nofun⟩⟩

theorem setSampleClock (duet : Duet ids engines) (sample : Nat) :
    Duet ids (fun part => (engines part).setSampleClock sample) where
  sampleRate := duet.sampleRate
  panMode := duet.panMode
  sampleClock := fun _ => rfl
  wheels := duet.wheels
  kills := duet.kills
  roster := by
    rcases duet.roster with ⟨slots, represents, choir⟩
    exact ⟨slots, fun part => (represents part).frame rfl rfl, choir⟩

/-- What the joint engine takes from a client, the engine of the client takes.  Its ring holds
a part of the joint ring. -/
theorem submit (duet : Duet ids engines) {side : Side} {index : Nat} {params : FofParams R}
    (own : OwnsGrain ids side params) {next : RfofsEngine R}
    (submitted : (engines .joint).submit index params = some next) :
    ∃ nexts : Part → RfofsEngine R,
      (∀ part, part.hears side = true → (engines part).submit index params = some (nexts part)) ∧
      (∀ part, part.hears side = false → nexts part = engines part) ∧ Duet ids nexts := by
  rcases duet.wheels with ⟨wheels, families, shared⟩
  have listed : ∀ part, (engines part).wheels = wheels.map (fun wheel => wheel part) := families
  rcases RfofsEngine.submit_eq_some.mp submitted with ⟨joint, _, found, pushed, _⟩
  rw [listed .joint, List.getElem?_map] at found
  rcases Option.map_eq_some_iff.mp found with ⟨wheel, at_index, rfl⟩
  rcases shared wheel (List.mem_of_getElem? at_index) with ⟨g, logs, wheelShared⟩
  rcases wheelShared.ring.push own pushed with ⟨rings, hearing, deaf, ring, _⟩
  have own_wheel : ∀ part, (engines part).wheels[index]? = some (wheel part) := by
    intro part
    rw [listed part, List.getElem?_map, at_index, Option.map_some]
  refine ⟨fun part => { engines part with
      wheels := (engines part).wheels.set index { wheel part with rx := rings part } },
    fun part heard => RfofsEngine.submit_eq_some.mpr
      ⟨wheel part, rings part, own_wheel part, hearing part heard, rfl⟩,
    fun part unheard => ?_, ?_⟩
  · rcases List.getElem?_eq_some_iff.mp (own_wheel part) with ⟨inside, same⟩
    have kept : (engines part).wheels.set index { wheel part with rx := rings part } =
        (engines part).wheels := by
      rw [deaf part unheard, ← same]
      exact List.set_getElem_self inside
    exact congrArg (fun wheels => { engines part with wheels := wheels }) kept
  · refine ⟨duet.sampleRate, duet.panMode, duet.sampleClock,
      ⟨wheels.set index (fun part => { wheel part with rx := rings part }), fun part => ?_, ?_⟩,
      duet.kills, ?_⟩
    · change (engines part).wheels.set index _ = _
      rw [listed part, List.map_set]
    · intro other member
      rcases List.mem_or_eq_of_mem_set member with old | rfl
      · exact shared other old
      · exact ⟨g, logs, wheelShared.withRing ring⟩
    · rcases duet.roster with ⟨slots, represents, choir⟩
      exact ⟨slots, fun part => (represents part).frame rfl rfl, choir⟩

theorem submitKill (duet : Duet ids engines) {side : Side} {req : FofKillRequest R}
    (own : OwnsKill ids side req) {next : RfofsEngine R}
    (submitted : (engines .joint).submitKill req = some next) :
    ∃ nexts : Part → RfofsEngine R,
      (∀ part, part.hears side = true → (engines part).submitKill req = some (nexts part)) ∧
      (∀ part, part.hears side = false → nexts part = engines part) ∧ Duet ids nexts := by
  rcases RfofsEngine.submitKill_eq_some.mp submitted with ⟨_, pushed, _⟩
  rcases duet.kills.push own pushed with ⟨rings, hearing, deaf, ring, _⟩
  refine ⟨fun part => { engines part with killRx := ⟨rings part⟩ }, fun part heard =>
    RfofsEngine.submitKill_eq_some.mpr ⟨rings part, hearing part heard, rfl⟩,
    fun part unheard => congrArg (fun rx => { engines part with killRx := ⟨rx⟩ })
      (deaf part unheard), ?_⟩
  · refine ⟨duet.sampleRate, duet.panMode, duet.sampleClock, duet.wheels, ring, ?_⟩
    rcases duet.roster with ⟨slots, represents, choir⟩
    exact ⟨slots, fun part => (represents part).frame rfl rfl, choir⟩

end Duet

section Blocks

variable [Field R] [LinearOrder R] [FloorRing R] [RealOps R]
variable {ids : Side → Set Nat} {engines : Part → RfofsEngine R}

/-- The rosters of the three engines just before a block is rendered. -/
theorem Duet.roused (duet : Duet ids engines) (apart : Disjoint (ids .left) (ids .right))
    {slots : Part → List (Nat × Voice R)} (choir : Choir ids (fun part => (slots part).map Prod.snd))
    {blockSize : Nat} (fires : Woven (fun part => (engines part).incoming blockSize))
    (owned : ∀ side, ∀ params ∈ (engines (.share side)).incoming blockSize,
      OwnsGrain ids side params) :
    Choir ids (fun part => roused (engines part).sampleRate ((engines part).incoming blockSize)
      (engines part).pendingKills ((slots part).map Prod.snd)) := by
  have joint := choir.roused apart (engines .joint).sampleRate fires owned duet.kills.items
    duet.kills.owned
  simp only [duet.sampleRate]
  exact joint

/-- A block of the joint engine that rejects nothing renders the sum of the blocks of the
two engines. -/
theorem Duet.block (duet : Duet ids engines) (apart : Disjoint (ids .left) (ids .right))
    (sorted : ∀ wheel ∈ (engines .joint).wheels, InOrder wheel.rx.items)
    (clean : ∀ wheel ∈ (engines .joint).wheels, rejected wheel.blockVerdicts = [])
    (choices : Part → KeyChoice) (channels blockSize : Nat) :
    ∃ (nexts : Part → RfofsEngine R) (outputs : Part → List (List R)),
      (∀ part, (engines part).processBlock (choices part) (silence channels blockSize) blockSize =
        some (nexts part, outputs part)) ∧
      (∀ part, ∀ wheel ∈ (engines part).wheels, rejected wheel.blockVerdicts = []) ∧
      Duet ids nexts ∧
      outputs .joint = addOutputs (outputs (.share .left)) (outputs (.share .right)) ∧
      (nexts .joint).activeCount =
        (nexts (.share .left)).activeCount + (nexts (.share .right)).activeCount := by
  rcases duet.roster with ⟨slots, represents, choir⟩
  rcases duet.wheels.drain sorted clean (engines .joint).sampleClock blockSize with
    ⟨accepts, drained, fires, owned⟩
  have incoming : ∀ part, (engines part).incoming blockSize = (engines part).wheels.flatMap
      (fun wheel => (wheel.drainBlockSafe (engines .joint).sampleClock blockSize []).2) := by
    intro part
    rw [RfofsEngine.incoming, drainWheels_eq, List.nil_append, duet.sampleClock part]
  have sound : ∀ part, Sound (engines part) (slots part) :=
    fun part => ⟨represents part, duet.wheels.accounted part⟩
  choose ready next _ frame readyRepresents _ voices finished using
    fun part => (sound part).block (choices part) blockSize
  have clock : ∀ part, (ready part).sampleClock = (engines .joint).sampleClock :=
    fun part => (frame part).sampleClock.trans (duet.sampleClock part)
  have mode : ∀ part, (ready part).panMode = (engines .joint).panMode :=
    fun part => (frame part).panMode.trans (duet.panMode part)
  have readyChoir : Choir ids (fun part => (next part).map Prod.snd) := by
    have roused := duet.roused apart choir (Woven.of_eq incoming fires)
      (fun side params member => owned side params (incoming (.share side) ▸ member))
    rwa [← (funext voices : (fun part => _) = _)] at roused
  have roster : Choir ids (fun part => (sweptSlots (eachVoice
      (Voice.fill (engines part).sampleClock blockSize) (next part))).map Prod.snd) := by
    simp only [sweptSlots_voices, eachVoice_voices, duet.sampleClock]
    exact (readyChoir.fill _ _).sweep apart
  have nextWheels : ∀ part, ((ready part).finish blockSize (silence channels blockSize)).1.wheels =
      (engines part).wheels.map
        (fun wheel => (wheel.drainBlockSafe (engines .joint).sampleClock blockSize []).1) := by
    intro part
    refine (frame part).wheels.trans ?_
    rw [RfofsEngine.drained, drainWheels_eq, duet.sampleClock part]
  have emptied : ∀ part, ((ready part).finish blockSize (silence channels blockSize)).1.killRx =
      ((engines part).killRx.drainAll []).1 := fun part => (frame part).killRx
  have nextRepresents := fun part => (finished part (silence channels blockSize)).2.represents
  refine ⟨fun part => ((ready part).finish blockSize (silence channels blockSize)).1,
    fun part => ((ready part).finish blockSize (silence channels blockSize)).2,
    fun part => (finished part _).1, accepts,
    ⟨fun part => ?_, fun part => (mode part).trans (mode .joint).symm, fun part => ?_, ?_, ?_,
      ⟨_, nextRepresents, roster⟩⟩, ?_, ?_⟩
  · exact ((frame part).sampleRate.trans (duet.sampleRate part)).trans (frame .joint).sampleRate.symm
  · change (ready part).sampleClock + blockSize = (ready .joint).sampleClock + blockSize
    rw [clock part, clock .joint]
  · exact (funext nextWheels : (fun part => _) = _) ▸ drained
  · simp only [emptied]
    exact ⟨Interleaves.nil, duet.kills.capacity, fun _ req member => by cases member⟩
  · simp only [(readyRepresents _).finish_outputs, mode, clock]
    exact mix_woven _ _ _ _ readyChoir.grains
  · have count := Interleaves.length_eq roster.woven
    simp only [List.length_map] at count
    simp only [(nextRepresents _).activeCount, count]

end Blocks

/-! ## Runs -/

/-- What the two clients and the host do; a push and a kill say on whose behalf they are made. -/
inductive SplitCall (R : Type*) where
  | clock (sample : Nat)
  | submit (side : Side) (index : Nat) (params : FofParams R)
  | kill (side : Side) (req : FofKillRequest R)
  | block (choices : Part → KeyChoice) (channels blockSize : Nat)

/-- What a block leaves behind: its outputs, how many grains are active after it, and
which requests its wheels rejected. -/
structure BlockRecord (R : Type*) where
  outputs : List (List R)
  activeCount : Nat
  rejected : List (FofParams R)

/-- The requests that are pushed to one wheel. -/
def pushesTo (index : Nat) : List (SplitCall R) → List (FofParams R)
  | [] => []
  | .submit _ target params :: calls =>
      if target = index then params :: pushesTo index calls else pushesTo index calls
  | _ :: calls => pushesTo index calls

/-- The nonzero ids under which a client pushes. -/
def pushedIds (calls : List (SplitCall R)) (side : Side) : Set Nat :=
  {id | id ≠ 0 ∧ ∃ index params, .submit side index params ∈ calls ∧ params.id = id}

/-- The pushes that are still to come stay behind those in the rings. -/
def Ordered (engine : RfofsEngine R) (calls : List (SplitCall R)) : Prop :=
  ∀ index wheel, engine.wheels[index]? = some wheel →
    InOrder (wheel.rx.items ++ pushesTo index calls)

/-- A call of a client that keeps to the ids of its own. -/
def Owned (ids : Side → Set Nat) : SplitCall R → Prop
  | .submit side _ params => OwnsGrain ids side params
  | .kill side req => OwnsKill ids side req
  | _ => True

theorem Ordered.submit {engine next : RfofsEngine R} {side : Side} {index : Nat}
    {params : FofParams R} {calls : List (SplitCall R)}
    (ordered : Ordered engine (.submit side index params :: calls))
    (submitted : engine.submit index params = some next) : Ordered next calls := by
  rcases RfofsEngine.submit_eq_some.mp submitted with ⟨wheel, rx, listed, pushed, rfl⟩
  intro other found located
  have before := ordered other
  by_cases same : index = other
  · subst same
    rcases List.getElem?_eq_some_iff.mp listed with ⟨inside, _⟩
    rw [List.getElem?_set_self inside] at located
    cases located
    have order := before wheel listed
    rw [pushesTo, if_pos rfl] at order
    rw [(BoundedFifo.push_ok pushed).1, List.append_assoc]
    exact order
  · rw [List.getElem?_set_ne same] at located
    have order := before found located
    rwa [pushesTo, if_neg same] at order

theorem Ordered.block {engine next : RfofsEngine R} {choices : Part → KeyChoice}
    {channels blockStart blockSize : Nat} {calls : List (SplitCall R)}
    (ordered : Ordered engine (.block choices channels blockSize :: calls))
    (wheels : next.wheels = (drainWheels blockStart blockSize engine.wheels []).1) :
    Ordered next calls := by
  intro index found located
  rw [wheels, drainWheels_eq, List.getElem?_map] at located
  rcases Option.map_eq_some_iff.mp located with ⟨wheel, listed, rfl⟩
  have order := ordered index wheel listed
  rw [← wheel.drainBlockSafe_ring blockStart blockSize [], List.append_assoc] at order
  exact (List.pairwise_append.mp order).2.1

/-- A call that is heard succeeds, and one that is not heard changes nothing. -/
theorem hear_eq {part : Part} {side : Side} {engine next : RfofsEngine R}
    {attempt : Option (RfofsEngine R)} (hearing : part.hears side = true → attempt = some next)
    (deaf : part.hears side = false → next = engine) :
    (if part.hears side then attempt.map (fun next => (next, ([] : List (BlockRecord R))))
      else some (engine, [])) = some (next, []) := by
  cases heard : part.hears side with
  | true => rw [if_pos rfl, hearing heard, Option.map_some]
  | false => rw [if_neg Bool.false_ne_true, deaf heard]

section Runs

variable [Field R] [LinearOrder R] [FloorRing R] [RealOps R]

def BlockRecord.add (first second : BlockRecord R) : BlockRecord R where
  outputs := addOutputs first.outputs second.outputs
  activeCount := first.activeCount + second.activeCount
  rejected := first.rejected ++ second.rejected

/-- One call to an engine; a call of the other client is not heard.  A refused push
ends the run. -/
def play (part : Part) (engine : RfofsEngine R) :
    SplitCall R → Option (RfofsEngine R × List (BlockRecord R))
  | .clock sample => some (engine.setSampleClock sample, [])
  | .submit side index params =>
      if part.hears side then (engine.submit index params).map (fun next => (next, []))
      else some (engine, [])
  | .kill side req =>
      if part.hears side then (engine.submitKill req).map (fun next => (next, []))
      else some (engine, [])
  | .block choices channels blockSize =>
      (engine.processBlock (choices part) (silence channels blockSize) blockSize).map (fun done =>
        (done.1, [⟨done.2, done.1.activeCount,
          Queue.rejected (engine.wheels.flatMap (fun wheel => wheel.blockVerdicts))⟩]))

/-- All calls in turn, with the records of the blocks. -/
def playAll (part : Part) :
    RfofsEngine R → List (SplitCall R) → Option (RfofsEngine R × List (BlockRecord R))
  | engine, [] => some (engine, [])
  | engine, call :: calls => (play part engine call).bind (fun played =>
      (playAll part played.1 calls).map (fun rest => (rest.1, played.2 ++ rest.2)))

/-- One call to all three engines.  The record of the joint block is the sum of the other two. -/
theorem Duet.play {ids : Side → Set Nat} {engines : Part → RfofsEngine R}
    (duet : Duet ids engines) (apart : Disjoint (ids .left) (ids .right)) {call : SplitCall R}
    {calls : List (SplitCall R)} (ordered : Ordered (engines .joint) (call :: calls))
    (owned : Owned ids call) {next : RfofsEngine R} {records : List (BlockRecord R)}
    (played : play .joint (engines .joint) call = some (next, records))
    (clean : ∀ record ∈ records, record.rejected = []) :
    ∃ (nexts : Part → RfofsEngine R) (heard : Part → List (BlockRecord R)),
      (∀ part, play part (engines part) call = some (nexts part, heard part)) ∧
      Duet ids nexts ∧ Ordered (nexts .joint) calls ∧
      (∀ part, (heard part).length = (heard .joint).length) ∧
      heard .joint = List.zipWith BlockRecord.add (heard (.share .left)) (heard (.share .right)) := by
  cases call with
  | clock sample =>
      exact ⟨_, fun _ => [], fun _ => rfl, duet.setSampleClock sample, ordered, fun _ => rfl, rfl⟩
  | submit side index params =>
      rcases Option.map_eq_some_iff.mp played with ⟨_, submitted, _⟩
      rcases duet.submit owned submitted with ⟨nexts, hearing, deaf, nextDuet⟩
      refine ⟨nexts, fun _ => [], fun part => ?_, nextDuet, ordered.submit (hearing .joint rfl),
        fun _ => rfl, rfl⟩
      exact hear_eq (hearing part) (deaf part)
  | kill side req =>
      rcases Option.map_eq_some_iff.mp played with ⟨_, submitted, _⟩
      rcases duet.submitKill owned submitted with ⟨nexts, hearing, deaf, nextDuet⟩
      refine ⟨nexts, fun _ => [], fun part => ?_, nextDuet, ?_, fun _ => rfl, rfl⟩
      · exact hear_eq (hearing part) (deaf part)
      · rcases RfofsEngine.submitKill_eq_some.mp (hearing .joint rfl) with ⟨rx, _, same⟩
        rw [same]
        exact ordered
  | block choices channels blockSize =>
      rcases Option.map_eq_some_iff.mp played with ⟨done, _, same⟩
      cases same
      have accepted := rejected_flatMap_eq_nil.mp (clean _ List.mem_cons_self)
      have sorted : ∀ wheel ∈ (engines .joint).wheels, InOrder wheel.rx.items := by
        intro wheel member
        rcases List.getElem?_of_mem member with ⟨index, listed⟩
        exact (List.pairwise_append.mp (ordered index wheel listed)).1
      rcases duet.block apart sorted accepted choices channels blockSize with
        ⟨nexts, outputs, blocks, accepts, nextDuet, mixed, counted⟩
      refine ⟨nexts, fun part => [⟨outputs part, (nexts part).activeCount, []⟩], fun part => ?_,
        nextDuet, ?_, fun _ => rfl, ?_⟩
      · rw [Engine.play, blocks part, Option.map_some,
          rejected_flatMap_eq_nil.mpr (accepts part)]
      · rcases duet.roster with ⟨slots, represents, _⟩
        rcases RfofsEngine.processBlock_total (choices .joint) (represents .joint).tracked
          (silence channels blockSize) blockSize with ⟨_, _, same, blockDone, _⟩
        rw [blocks .joint] at same
        cases same
        exact ordered.block blockDone.wheels
      · rw [List.zipWith_cons_cons, BlockRecord.add, ← mixed, ← counted]
        rfl

/-- Every call in turn.  By induction; the three engines stay a duet. -/
theorem Duet.playAll {ids : Side → Set Nat} {engines : Part → RfofsEngine R}
    (duet : Duet ids engines) (apart : Disjoint (ids .left) (ids .right))
    {calls : List (SplitCall R)} (ordered : Ordered (engines .joint) calls)
    (owned : ∀ call ∈ calls, Owned ids call) {final : RfofsEngine R}
    {records : List (BlockRecord R)}
    (played : playAll .joint (engines .joint) calls = some (final, records))
    (clean : ∀ record ∈ records, record.rejected = []) :
    ∃ (finals : Part → RfofsEngine R) (heard : Part → List (BlockRecord R)),
      (∀ part, playAll part (engines part) calls = some (finals part, heard part)) ∧
      (∀ part, (heard part).length = (heard .joint).length) ∧
      heard .joint = List.zipWith BlockRecord.add (heard (.share .left)) (heard (.share .right)) := by
  induction calls generalizing engines records with
  | nil => exact ⟨engines, fun _ => [], fun _ => rfl, fun _ => rfl, rfl⟩
  | cons call calls ih =>
      rcases Option.bind_eq_some_iff.mp played with ⟨⟨next, first⟩, firstPlayed, more⟩
      rcases Option.map_eq_some_iff.mp more with ⟨⟨last, rest⟩, restPlayed, same⟩
      cases same
      rcases duet.play apart ordered (owned call List.mem_cons_self) firstPlayed
        (fun record member => clean record (List.mem_append_left _ member)) with
        ⟨nexts, heard, calledAll, nextDuet, nextOrdered, lengths, summed⟩
      have joint := calledAll .joint
      rw [firstPlayed] at joint
      cases joint
      rcases ih nextDuet nextOrdered
        (fun later member => owned later (List.mem_cons_of_mem _ member)) restPlayed
        (fun record member => clean record (List.mem_append_right _ member)) with
        ⟨finals, later, ran, laterLengths, laterSummed⟩
      refine ⟨finals, fun part => heard part ++ later part, fun part => ?_, fun part => ?_, ?_⟩
      · rw [Engine.playAll, calledAll part, Option.bind_some, ran part, Option.map_some]
      · rw [List.length_append, List.length_append, lengths part, laterLengths part]
      · have same : (heard (.share .left)).length = (heard (.share .right)).length :=
          (lengths _).trans (lengths _).symm
        rw [List.zipWith_append same, ← summed, ← laterSummed]

/-- In every run that refuses and rejects nothing: the records of the joint engine add up
those of the two clients alone. -/
theorem grains_superpose (sampleRate : R) (panMode : PanMode)
    (specs : List (Nat × Geometry × Bool)) (killCapacity : Nat) {calls : List (SplitCall R)}
    (sorted : ∀ index, InOrder (pushesTo index calls))
    (apart : Disjoint (pushedIds calls .left) (pushedIds calls .right))
    (kills : ∀ side req, .kill side req ∈ calls → req.id ∉ pushedIds calls side.other)
    {final : RfofsEngine R} {records : List (BlockRecord R)}
    (played : playAll .joint (RfofsEngine.new sampleRate panMode (freshWheels specs)
      (killQueue killCapacity)) calls = some (final, records))
    (clean : ∀ record ∈ records, record.rejected = []) :
    ∃ leftFinal left rightFinal right,
      playAll (.share .left) (RfofsEngine.new sampleRate panMode (freshWheels specs)
        (killQueue killCapacity)) calls = some (leftFinal, left) ∧
      playAll (.share .right) (RfofsEngine.new sampleRate panMode (freshWheels specs)
        (killQueue killCapacity)) calls = some (rightFinal, right) ∧
      left.length = records.length ∧ right.length = records.length ∧
      records = List.zipWith BlockRecord.add left right := by
  have duet := Duet.new (pushedIds calls) sampleRate panMode specs killCapacity
  have ordered : Ordered (RfofsEngine.new sampleRate panMode (freshWheels specs)
      (killQueue killCapacity)) calls := by
    intro index wheel listed
    rcases List.mem_map.mp (List.mem_of_getElem? listed) with ⟨⟨capacity, g, recorded⟩, _, rfl⟩
    cases recorded <;> exact sorted index
  have owned : ∀ call ∈ calls, Owned (pushedIds calls) call := by
    intro call member
    cases call with
    | submit side index params => exact fun nonzero => ⟨nonzero, index, params, member, rfl⟩
    | kill side req => exact kills side req member
    | _ => exact trivial
  rcases duet.playAll apart ordered owned played clean with ⟨finals, heard, ran, lengths, summed⟩
  have joint := ran .joint
  rw [played] at joint
  cases joint
  exact ⟨_, _, _, _, ran (.share .left), ran (.share .right), lengths _, lengths _, summed⟩

end Runs

/-! ## Two grains in one block -/

/-- A grain without an attack and without a decay. -/
def plainGrain (id startSample : Nat) : FofParams ℝ := ⟨id, startSample, 440, 0, 0, 1, 0, 0, 0, 1, 0, 0, 1⟩

/-- Each client submits one grain, and the first one kills its own. -/
def twoGrains : List (SplitCall ℝ) :=
  [.submit .left 0 (plainGrain 1 5), .submit .right 0 (plainGrain 2 7), .kill .left ⟨1, 4⟩,
    .block (fun _ => KeyChoice.next) 1 10]

/-- One wheel of four slots of ten samples. -/
def smallWheel : List (Nat × Geometry × Bool) := [(16, smallGeometry, false)]

/-- The engine of both clients, before the block. -/
noncomputable def twoWait : RfofsEngine ℝ :=
  { RfofsEngine.new 48000 .mono [] (killQueue 16) with
    wheels := [{ freshWheel 16 smallGeometry false with
      rx := ⟨16, [plainGrain 1 5, plainGrain 2 7], by decide⟩ }]
    killRx := ⟨⟨16, [⟨1, 4⟩], by decide⟩⟩ }

theorem twoWait_sound : Sound twoWait [] := by
  refine ⟨(new_represents 48000 .mono [] (killQueue 16)).frame rfl rfl, fun wheel member => ?_⟩
  rw [List.mem_singleton.mp member]
  exact ⟨smallGeometry, [], [], new_wheelAccounts _⟩

theorem twoGrains_played :
    ∃ final record, playAll .joint (RfofsEngine.new (48000 : ℝ) .mono (freshWheels smallWheel)
        (killQueue 16)) twoGrains = some (final, [record]) ∧ record.rejected = [] := by
  rcases twoWait_sound.block KeyChoice.next 10 with ⟨ready, next, _, _, _, _, _, finished⟩
  have block := (finished (silence 1 10)).1
  have accepted : Queue.rejected (twoWait.wheels.flatMap (fun wheel => wheel.blockVerdicts)) = [] :=
    rfl
  have submitted : playAll .joint (RfofsEngine.new (48000 : ℝ) .mono (freshWheels smallWheel)
      (killQueue 16)) twoGrains =
        playAll .joint twoWait [.block (fun _ => KeyChoice.next) 1 10] := rfl
  refine ⟨(ready.finish 10 (silence 1 10)).1, ⟨(ready.finish 10 (silence 1 10)).2,
    (ready.finish 10 (silence 1 10)).1.activeCount, []⟩, ?_, rfl⟩
  rw [submitted, playAll, play, block, Option.map_some, Option.bind_some, accepted]
  rfl

theorem grains_superpose_two :
    ∃ final record leftFinal left rightFinal right,
      playAll .joint (RfofsEngine.new (48000 : ℝ) .mono (freshWheels smallWheel) (killQueue 16))
        twoGrains = some (final, [record]) ∧
      playAll (.share .left) (RfofsEngine.new (48000 : ℝ) .mono (freshWheels smallWheel)
        (killQueue 16)) twoGrains = some (leftFinal, left) ∧
      playAll (.share .right) (RfofsEngine.new (48000 : ℝ) .mono (freshWheels smallWheel)
        (killQueue 16)) twoGrains = some (rightFinal, right) ∧
      [record] = List.zipWith BlockRecord.add left right := by
  rcases twoGrains_played with ⟨final, record, played, accepted⟩
  have sorted : ∀ index, InOrder (pushesTo index twoGrains) := by
    intro index
    cases index with
    | zero => exact List.pairwise_pair.mpr (by decide)
    | succ index => exact List.Pairwise.nil
  have left : ∀ id ∈ pushedIds twoGrains .left, id = 1 := by
    rintro id ⟨_, index, params, member, rfl⟩
    simp only [twoGrains, List.mem_cons, SplitCall.submit.injEq] at member
    rcases member with ⟨_, _, rfl⟩ | ⟨other, _⟩ | other | other | other
    · rfl
    all_goals cases other
  have right : ∀ id ∈ pushedIds twoGrains .right, id = 2 := by
    rintro id ⟨_, index, params, member, rfl⟩
    simp only [twoGrains, List.mem_cons, SplitCall.submit.injEq] at member
    rcases member with ⟨other, _⟩ | ⟨_, _, rfl⟩ | other | other | other
    · cases other
    · rfl
    all_goals cases other
  have apart : Disjoint (pushedIds twoGrains .left) (pushedIds twoGrains .right) := by
    rw [Set.disjoint_left]
    intro id own other
    have first := left id own
    rw [right id other] at first
    cases first
  have kills : ∀ side req, .kill side req ∈ twoGrains →
      req.id ∉ pushedIds twoGrains side.other := by
    intro side req member
    simp only [twoGrains, List.mem_cons, SplitCall.kill.injEq] at member
    rcases member with other | other | ⟨rfl, rfl⟩ | other | other
    · cases other
    · cases other
    · intro own
      cases right 1 own
    · cases other
    · cases other
  rcases grains_superpose 48000 .mono smallWheel 16 sorted apart kills played
    (fun other member => List.mem_singleton.mp member ▸ accepted) with
    ⟨leftFinal, leftRecords, rightFinal, rightRecords, leftPlayed, rightPlayed, _, _, summed⟩
  exact ⟨final, record, leftFinal, leftRecords, rightFinal, rightRecords, played, leftPlayed,
    rightPlayed, summed⟩

end Engine
end Rfofs
