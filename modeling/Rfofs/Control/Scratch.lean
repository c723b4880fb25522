import Rfofs.Control.ServerProcess
import Rfofs.Queue.Due

namespace Rfofs
namespace Control

open Foundation
open Grain
open Queue
open Engine

/-!
# The preallocated buffers of the audio thread

The engine allocates its buffers when it is created, and a block is meant to stay inside
them.  How long a buffer becomes is decided elsewhere: the kill queue bounds the kill
requests that wait, the wheel what falls due in a block, and clients choose the ids.  The
bridging thread goes on forwarding while a block drains its queues, and the drain ends only
where it finds the queue empty.

`WithinScratch` follows the length of each buffer at every point of a block.  `Provisioned`
bounds what the block is given: what waits when it begins, what arrives until its drains
find nothing more, what is active, and which ids are in use.
-/

variable {R : Type*}

/-! ## The configuration of the server -/

/-- Larger blocks are refused at startup. -/
def maxBlockSize : Nat := 1024

/-- The number of grains that the pool holds without growing. -/
def initialCapacity : Nat := 4096

def idMapCapacity : Nat := 256

def incomingCapacity : Nat := 256

def killRequestsCapacity : Nat := 64

/-- A block size that the server accepts from the audio device. -/
structure DeviceBlock where
  size : Nat
  positive : 0 < size
  accepted : size ≤ maxBlockSize

theorem serverSlots_pos : 0 < 256 := by decide

/-- The wheel of the server has one slot for each block of the device. -/
def DeviceBlock.geometry (device : DeviceBlock) : Geometry where
  slots := 256
  duration := device.size
  capacity := 64
  slots_pos := serverSlots_pos
  duration_pos := device.positive

/-! ## What a block is given -/

/-- The wheel after some entries have reached its ring, in a ring that has room for them.
A ring that is emptied in the meantime may take more than its capacity. -/
def receive (self : TimeWheelConsumer R) (arriving : List (FofParams R)) : TimeWheelConsumer R :=
  { self with rx := ⟨self.rx.capacity + arriving.length, self.rx.items ++ arriving, by
      rw [List.length_append]
      exact Nat.add_le_add_right self.rx.bounded _⟩ }

/-- The wheel as the block finds it, with the requests that reach its ring until the
admissions end; and the kill requests that wait, with those that arrive until the block
ends. -/
structure BlockInputs (R : Type*) where
  wheel : TimeWheelConsumer R
  kills : List (FofKillRequest R)

/-- The observer takes down what waits where a block begins, and what the bridging thread
forwards after that. -/
def BlockInputs.after (given : BlockInputs R) (s : ServerProcess R) :
    ServerStep R → BlockInputs R
  | .beginBlock _ => ⟨s.plane.wheelRx, s.plane.killRx.rx.items⟩
  | .bridge =>
      ⟨match s.plane.audio with
        | .admitting _ _ => receive given.wheel s.plane.forwardedFofs
        | _ => given.wheel,
        given.kills ++ s.plane.forwardedKills⟩
  | _ => given

/-- The server, the length of the one buffer that is not cleared before each use, and what
the block in progress is given. -/
structure AudioThread (R : Type*) where
  server : ServerProcess R
  monoLength : Nat
  given : BlockInputs R

namespace AudioThread

/-- The server of the configuration before its first block. -/
def start (sampleRate : R) (panMode : PanMode) (ingressCapacity : Nat) (device : DeviceBlock)
    (clockMode : ClockMode) : AudioThread R where
  server := .start sampleRate panMode ingressCapacity device.geometry clockMode
  monoLength := maxBlockSize
  given := ⟨freshWheel ingressCapacity device.geometry true, []⟩

/-- A block that is larger than the mono buffer resizes it. -/
def monoAfter (monoLength : Nat) (s : ServerProcess R) : ServerStep R → Nat
  | .endBlock _ => if monoLength < s.nFrames then s.nFrames else monoLength
  | _ => monoLength

/-- A block has begun and has not ended. -/
def InBlock (thread : AudioThread R) : Prop := thread.server.plane.audio ≠ .idle

/-- The block has found its queues empty, and may spawn, kill and render. -/
def Drained (thread : AudioThread R) : Prop :=
  (thread.server.plane.step .endBlock).isSome

theorem Drained.queues {thread : AudioThread R} (drained : thread.Drained) :
    thread.server.plane.audio = .drainingKills ∧ thread.server.plane.killRx.rx.items = [] := by
  rcases Option.isSome_iff_exists.mp drained with ⟨plane, stepped⟩
  simp only [ControlPlane.step] at stepped
  split at stepped <;> cases stepped
  rename_i at_pc empty
  exact ⟨at_pc, BoundedFifo.pop_eq_none.mp empty⟩

theorem Drained.inBlock {thread : AudioThread R} (drained : thread.Drained) : thread.InBlock := by
  rw [InBlock, drained.queues.1]
  rintro ⟨⟩

/-- What falls due in the block in progress.  It depends on what waited when the block began
and on what has arrived since. -/
def due (thread : AudioThread R) : List (FofParams R) :=
  thread.given.wheel.due (thread.server.engine.sampleClock + thread.server.nFrames)

end AudioThread

/-- The keys of the map of ids. -/
def knownIds (engine : RfofsEngine R) : Set Nat := {id | engine.idMap id ≠ none}

/-- The ids under which some requests can be killed. -/
def killableIds (requests : List (FofParams R)) : Set Nat :=
  {id | id ≠ 0 ∧ id ∈ requests.map FofParams.id}

theorem killableIds_nil : killableIds ([] : List (FofParams R)) = ∅ :=
  Set.eq_empty_of_forall_notMem (fun _ known => List.not_mem_nil known.2)

theorem killableIds_cons (params : FofParams R) (requests : List (FofParams R)) :
    killableIds (params :: requests) = killableIds [params] ∪ killableIds requests := by
  ext id
  change (id ≠ 0 ∧ id ∈ (params :: requests).map FofParams.id) ↔
    (id ≠ 0 ∧ id ∈ [params].map FofParams.id) ∨ (id ≠ 0 ∧ id ∈ requests.map FofParams.id)
  rw [List.map_cons, List.mem_cons, List.map_singleton, List.mem_singleton, and_or_left]

theorem killableIds_mono {some all : List (FofParams R)} (front : some <+: all) :
    killableIds some ⊆ killableIds all :=
  fun _ known => ⟨known.1, (front.map FofParams.id).subset known.2⟩

/-- What the buffers need: bounds on what the block is given and on the engine in front of
it. -/
structure Provisioned (thread : AudioThread R) : Prop where
  kills : thread.given.kills.length ≤ killRequestsCapacity
  due : thread.due.length ≤ incomingCapacity
  ids : (knownIds thread.server.engine ∪ killableIds thread.due).encard ≤ idMapCapacity
  active : thread.server.engine.activeCount + thread.due.length ≤ initialCapacity

section Blocks

variable [Field R] [LinearOrder R] [FloorRing R] [RealOps R]

def AudioThread.step (thread : AudioThread R) (label : ServerStep R) : Option (AudioThread R) :=
  (thread.server.step label).map (fun server =>
    { server := server
      monoLength := monoAfter thread.monoLength thread.server label
      given := thread.given.after thread.server label })

/-- The buffers at a point of a block.  What has been drained stands in `incoming` and in
`killRequests`.  The pool and the map grow with each spawned request, and the list of keys
is the pool of the engine that is rendered. -/
structure WithinScratch (thread : AudioThread R) : Prop where
  killRequests : thread.server.killRequests.length ≤ killRequestsCapacity
  incoming : ∀ fired, fired <+: thread.server.incoming → fired.length ≤ incomingCapacity
  idMap : ∀ choice spawned, spawned <+: thread.server.incoming →
    (knownIds (spawned.foldl (RfofsEngine.spawn choice) thread.server.engine)).encard ≤
      idMapCapacity
  active : ∀ choice spawned, spawned <+: thread.server.incoming →
    (spawned.foldl (RfofsEngine.spawn choice) thread.server.engine).activeCount ≤ initialCapacity
  activeKeys : ∀ choice ready, thread.server.ready choice = some ready →
    ready.active.keys.length ≤ initialCapacity
  deadKeys : ∀ choice ready, thread.server.ready choice = some ready →
    ((ready.render ready.sampleClock thread.server.nFrames thread.server.ports).1.active.values.filter
      (fun grain => decide (grain.phase = .dead))).length ≤ initialCapacity
  monoBuf : thread.server.nFrames ≤ maxBlockSize → ¬ thread.monoLength < thread.server.nFrames

end Blocks

/-! ## What every run preserves -/

/-- What has been drained and what is still in the queues, in terms of what the block was
given. -/
structure Supplied (g : Geometry) (thread : AudioThread R) : Prop where
  conserves : Conserves g thread.server.plane
  accounts : ∃ log fired, WheelAccounts g thread.given.wheel.wheel log fired
  roster : ∃ slots, Represents thread.server.engine slots
  allocated : maxBlockSize ≤ thread.monoLength
  applied : thread.server.applied ≤ thread.server.plane.drainedKills.length
  idle : ¬ thread.InBlock →
    thread.server.applied = thread.server.plane.drainedKills.length
  kills : thread.InBlock → thread.given.kills =
    thread.server.killRequests ++ thread.server.plane.killRx.rx.items
  resting : thread.server.plane.audio ≠ .drainingKills →
    thread.server.spawned = thread.server.plane.fired.length
  admitting : ∀ admitBefore blockEnd, thread.server.plane.audio = .admitting admitBefore blockEnd →
    blockEnd = thread.server.engine.sampleClock + thread.server.nFrames ∧
    admitBefore = thread.given.wheel.wheel.wheelTime + thread.given.wheel.wheel.horizon ∧
    ∃ admitted, (∀ params ∈ admitted, params.startSample < admitBefore) ∧
      thread.given.wheel.rx.items = admitted ++ thread.server.plane.wheelRx.rx.items ∧
      thread.server.plane.wheelRx.wheel = (TimeWheelConsumer.admitReady admitBefore admitted
        thread.given.wheel.wheel thread.given.wheel.stats).2.1
  draining : thread.server.plane.audio = .drainingKills → thread.server.incoming = thread.due

namespace Supplied

variable {g : Geometry} {thread : AudioThread R}

theorem start (sampleRate : R) (panMode : PanMode) (ingressCapacity : Nat) (device : DeviceBlock)
    (clockMode : ClockMode) : Supplied device.geometry
      (.start sampleRate panMode ingressCapacity device clockMode) where
  conserves := Conserves.start ingressCapacity device.geometry
  accounts := ⟨[], [], new_wheelAccounts device.geometry⟩
  roster := ⟨[], new_represents sampleRate panMode _ _⟩
  allocated := Nat.le_refl _
  applied := Nat.le_refl _
  idle := fun _ => rfl
  kills := fun busy => absurd rfl busy
  resting := fun _ => rfl
  admitting := by
    intro admitBefore blockEnd at_pc
    cases at_pc
  draining := by
    intro at_pc
    cases at_pc

/-- A step that the audio thread does not notice. -/
theorem frame (supplied : Supplied g thread) {plane : ControlPlane R} (control : ControlBlock)
    (conserves : Conserves g plane) (wheelRx : plane.wheelRx = thread.server.plane.wheelRx)
    (killRx : plane.killRx = thread.server.plane.killRx)
    (audio : plane.audio = thread.server.plane.audio)
    (fired : plane.fired = thread.server.plane.fired)
    (drained : plane.drainedKills = thread.server.plane.drainedKills) :
    Supplied g { thread with
      server := { thread.server with plane := plane, control := control } } := by
  refine ⟨conserves, supplied.accounts, supplied.roster, supplied.allocated, ?_, ?_, ?_, ?_, ?_, ?_⟩
  · rw [drained]
    exact supplied.applied
  · intro idle
    rw [drained]
    exact supplied.idle (fun busy => idle (fun moved => busy (audio.symm.trans moved)))
  · intro busy
    refine (supplied.kills (fun moved => busy (audio.trans moved))).trans ?_
    simp only [ServerProcess.killRequests, drained, killRx]
  · intro moved
    rw [fired]
    exact supplied.resting (fun draining => moved (audio.trans draining))
  · intro admitBefore blockEnd at_pc
    rw [wheelRx]
    exact supplied.admitting admitBefore blockEnd (audio.symm.trans at_pc)
  · intro at_pc
    refine Eq.trans ?_ (supplied.draining (audio.symm.trans at_pc))
    simp only [ServerProcess.incoming, fired]

/-- Where the admissions end, the wheel fires what falls due of the inputs of the block. -/
theorem advance_due (supplied : Supplied g thread) {admitBefore blockEnd : Nat}
    (at_pc : thread.server.plane.audio = .admitting admitBefore blockEnd)
    (stopped : ∀ params rest, thread.server.plane.wheelRx.rx.items = params :: rest →
      admitBefore ≤ params.startSample) :
    (thread.server.plane.wheelRx.wheel.advance blockEnd []).2 = thread.due := by
  rcases supplied.admitting _ _ at_pc with ⟨rfl, rfl, admitted, early, items, wheel⟩
  rcases supplied.accounts with ⟨log, fired, accounts⟩
  have whole : (TimeWheelConsumer.admitReady
      (thread.given.wheel.wheel.wheelTime + thread.given.wheel.wheel.horizon)
      thread.given.wheel.rx.items thread.given.wheel.wheel thread.given.wheel.stats).2.1 =
      thread.server.plane.wheelRx.wheel := by
    rw [items, admitReady_append early, (admitReady_stopped stopped).1]
    exact wheel.symm
  rw [AudioThread.due, ← TimeWheelConsumer.drainBlockSafe_due accounts, ← whole]
  rfl

/-- What has been drained from the wheel is nothing yet, or all that falls due. -/
theorem incoming_prefix (supplied : Supplied g thread) : thread.server.incoming <+: thread.due := by
  by_cases draining : thread.server.plane.audio = .drainingKills
  · rw [supplied.draining draining]
  · rw [ServerProcess.incoming, supplied.resting draining, List.drop_length]
    exact List.nil_prefix

end Supplied

section Blocks

variable [Field R] [LinearOrder R] [FloorRing R] [RealOps R]

/-! ## Spawned requests -/

theorem spawn_knownIds (choice : KeyChoice) (engine : RfofsEngine R) (params : FofParams R) :
    knownIds (engine.spawn choice params) = knownIds engine ∪ killableIds [params] := by
  ext id
  change (if params.id ≠ 0 then Function.update engine.idMap params.id _ else _) id ≠ none ↔
    engine.idMap id ≠ none ∨ (id ≠ 0 ∧ id ∈ [params.id])
  rw [List.mem_singleton]
  by_cases zero : params.id = 0
  · rw [if_neg (not_not_intro zero), zero]
    exact ⟨Or.inl, fun known => known.resolve_right (fun both => both.1 both.2)⟩
  · rw [if_pos zero]
    by_cases same : id = params.id
    · subst same
      rw [Function.update_self]
      exact ⟨fun _ => Or.inr ⟨zero, rfl⟩, fun _ => Option.some_ne_none _⟩
    · rw [Function.update_of_ne same]
      exact ⟨Or.inl, fun known => known.resolve_right (fun both => same both.2)⟩

theorem spawn_foldl_knownIds (choice : KeyChoice) (engine : RfofsEngine R)
    (requests : List (FofParams R)) :
    knownIds (requests.foldl (RfofsEngine.spawn choice) engine) =
      knownIds engine ∪ killableIds requests := by
  induction requests generalizing engine with
  | nil => rw [List.foldl_nil, killableIds_nil, Set.union_empty]
  | cons params requests ih =>
      rw [List.foldl_cons, ih, spawn_knownIds, Set.union_assoc, ← killableIds_cons]

theorem spawnKeys_length (choice : KeyChoice) (engine : RfofsEngine R)
    (requests : List (FofParams R)) :
    (spawnKeys choice engine requests).length = requests.length := by
  induction requests generalizing engine with
  | nil => rfl
  | cons params requests ih => rw [spawnKeys, List.length_cons, ih, List.length_cons]

section Roster

variable {engine : RfofsEngine R} {slots : List (Nat × Voice R)}

/-- Each spawned request takes one place in the pool. -/
theorem spawn_activeCount (represents : Represents engine slots) (choice : KeyChoice)
    (requests : List (FofParams R)) :
    (requests.foldl (RfofsEngine.spawn choice) engine).activeCount =
      engine.activeCount + requests.length := by
  rcases represents.spawn_foldl choice requests with ⟨next, spawned, _, keys, _⟩
  have count := congrArg List.length keys
  rw [List.length_map, List.length_append, List.length_map, spawnKeys_length] at count
  rw [spawned.activeCount, count, represents.activeCount]

/-- The engine that is rendered holds every spawned request. -/
theorem ready_activeCount {s : ServerProcess R} (represents : Represents s.engine slots)
    {choice : KeyChoice} {ready : RfofsEngine R} (prepared : s.ready choice = some ready) :
    ready.activeCount = s.engine.activeCount + s.incoming.length ∧
      ∃ next, Represents ready next := by
  rcases represents.spawn_foldl choice s.incoming with ⟨middle, spawned, _, keys, _⟩
  rcases spawned.kill_foldlM s.killRequests with ⟨found, next, killed, _, done, kept, _⟩
  cases prepared.symm.trans killed
  have count := congrArg List.length (kept.trans keys)
  rw [List.length_map, List.length_append, List.length_map, spawnKeys_length] at count
  refine ⟨?_, next, done⟩
  rw [done.activeCount, count, represents.activeCount]

end Roster

/-! ## One step -/

namespace Supplied

variable {g : Geometry} {thread : AudioThread R}

/-- The observer takes down what the bridging thread forwards. -/
theorem bridge (supplied : Supplied g thread) {next : AudioThread R}
    (taken : thread.step .bridge = some next) : Supplied g next := by
  cases taken
  rcases thread.server.plane.bridgeStep_queues with ⟨fofs, kills⟩
  rcases thread.server.plane.bridgeStep_frame with ⟨audio, fired, drained, _, wheel⟩
  refine ⟨supplied.conserves.bridgeStep, ?_, supplied.roster, supplied.allocated, ?_, ?_, ?_, ?_,
    ?_, ?_⟩
  · change ∃ log fired, WheelAccounts g (BlockInputs.after _ _ _).wheel.wheel log fired
    unfold BlockInputs.after
    cases thread.server.plane.audio <;> exact supplied.accounts
  · change _ ≤ thread.server.plane.bridgeStep.drainedKills.length
    rw [drained]
    exact supplied.applied
  · intro idle
    change _ = thread.server.plane.bridgeStep.drainedKills.length
    rw [drained]
    exact supplied.idle (fun busy => idle (fun moved => busy (audio.symm.trans moved)))
  · intro busy
    change thread.given.kills ++ _ = thread.server.plane.bridgeStep.drainedKills.drop _ ++
      thread.server.plane.bridgeStep.killRx.rx.items
    rw [kills, drained, supplied.kills (fun moved => busy (audio.trans moved)), List.append_assoc]
    rfl
  · intro moved
    change _ = thread.server.plane.bridgeStep.fired.length
    rw [fired]
    exact supplied.resting (fun draining => moved (audio.trans draining))
  · intro admitBefore blockEnd at_pc
    have before := audio.symm.trans at_pc
    rcases supplied.admitting admitBefore blockEnd before with
      ⟨stop, bound, admitted, early, items, same⟩
    have given : (thread.given.after thread.server .bridge).wheel =
        receive thread.given.wheel thread.server.plane.forwardedFofs := by
      unfold BlockInputs.after
      rw [before]
    refine ⟨stop, ?_, admitted, early, ?_, ?_⟩
    · change admitBefore = (thread.given.after _ _).wheel.wheel.wheelTime + _
      rw [given]
      exact bound
    · change (thread.given.after _ _).wheel.rx.items = _ ++
        thread.server.plane.bridgeStep.wheelRx.rx.items
      rw [given, fofs, ← List.append_assoc, ← items]
      rfl
    · change thread.server.plane.bridgeStep.wheelRx.wheel = _
      rw [wheel, same]
      change _ = (TimeWheelConsumer.admitReady _ _ (thread.given.after _ _).wheel.wheel
        (thread.given.after _ _).wheel.stats).2.1
      rw [given]
      rfl
  · intro at_pc
    have before := audio.symm.trans at_pc
    have given : (thread.given.after thread.server .bridge).wheel = thread.given.wheel := by
      unfold BlockInputs.after
      rw [before]
    have drains := supplied.draining before
    unfold ServerProcess.incoming AudioThread.due at drains ⊢
    change List.drop _ thread.server.plane.bridgeStep.fired = (thread.given.after _ _).wheel.due _
    rw [fired, given]
    exact drains

theorem beginBlock (supplied : Supplied g thread) {cycle : Cycle} {next : AudioThread R}
    (taken : thread.step (.beginBlock cycle) = some next) : Supplied g next := by
  rcases Option.map_eq_some_iff.mp taken with ⟨server, begun, rfl⟩
  rcases Option.map_eq_some_iff.mp begun with ⟨plane, stepped, rfl⟩
  have conserves := supplied.conserves.step stepped
  simp only [ControlPlane.step] at stepped
  split at stepped <;> cases stepped
  rename_i idle
  have applied := supplied.idle (fun busy => busy idle)
  have spawned := supplied.resting (by rw [idle]; rintro ⟨⟩)
  rcases supplied.roster with ⟨slots, represents⟩
  refine ⟨conserves, ⟨_, _, supplied.conserves.wheel⟩, ⟨slots, represents.frame rfl rfl⟩,
    supplied.allocated, supplied.applied, fun _ => applied, fun _ => ?_, fun _ => spawned, ?_, ?_⟩
  · change thread.server.plane.killRx.rx.items =
      thread.server.plane.drainedKills.drop thread.server.applied ++ _
    rw [applied, List.drop_length]
    rfl
  · intro admitBefore blockEnd at_pc
    cases at_pc
    exact ⟨rfl, rfl, [], fun params member => absurd member List.not_mem_nil, rfl, rfl⟩
  · intro at_pc
    cases at_pc

theorem admitNext (supplied : Supplied g thread) {next : AudioThread R}
    (taken : thread.step .admitNext = some next) : Supplied g next := by
  rcases Option.map_eq_some_iff.mp taken with ⟨server, begun, rfl⟩
  rcases Option.map_eq_some_iff.mp begun with ⟨plane, stepped, rfl⟩
  have conserves := supplied.conserves.step stepped
  simp only [ControlPlane.step] at stepped
  split at stepped
  · rename_i admitBefore blockEnd params rest at_pc held
    split at stepped <;> cases stepped
    rename_i early
    have busy : thread.InBlock := by
      rw [AudioThread.InBlock, at_pc]
      rintro ⟨⟩
    refine ⟨conserves, supplied.accounts, supplied.roster, supplied.allocated, supplied.applied,
      fun idle => absurd busy idle, fun _ => supplied.kills busy,
      fun _ => supplied.resting (by rw [at_pc]; rintro ⟨⟩), ?_, ?_⟩
    · intro bound stop same
      cases at_pc.symm.trans same
      rcases supplied.admitting _ _ at_pc with ⟨end_eq, bound_eq, admitted, window, items, wheel⟩
      refine ⟨end_eq, bound_eq, admitted ++ [params], ?_, ?_, ?_⟩
      · intro other member
        rcases List.mem_append.mp member with old | new
        · exact window other old
        · exact List.mem_singleton.mp new ▸ early
      · refine (items.trans (congrArg (admitted ++ ·) held)).trans ?_
        exact (List.append_assoc admitted [params] rest).symm
      · have whole : (TimeWheelConsumer.admitReady admitBefore (admitted ++ [params])
            thread.given.wheel.wheel thread.given.wheel.stats).2.1 = _ :=
          congrArg (fun admission => admission.2.1) (admitReady_append window)
        rw [← wheel, TimeWheelConsumer.admitReady, if_pos early] at whole
        exact whole.symm
    · intro draining
      exact absurd (at_pc.symm.trans draining) (by rintro ⟨⟩)
  · cases stepped

theorem advance (supplied : Supplied g thread) {next : AudioThread R}
    (taken : thread.step .advance = some next) : Supplied g next := by
  rcases Option.map_eq_some_iff.mp taken with ⟨server, begun, rfl⟩
  rcases Option.map_eq_some_iff.mp begun with ⟨plane, stepped, rfl⟩
  have conserves := supplied.conserves.step stepped
  have fires : ∀ admitBefore blockEnd,
      thread.server.plane.audio = .admitting admitBefore blockEnd →
      (∀ params rest, thread.server.plane.wheelRx.rx.items = params :: rest →
        admitBefore ≤ params.startSample) →
      plane = thread.server.plane.advanceWheel blockEnd →
      Supplied g ⟨{ thread.server with plane := plane }, thread.monoLength, thread.given⟩ := by
    rintro admitBefore blockEnd at_pc stopped rfl
    have busy : thread.InBlock := by
      rw [AudioThread.InBlock, at_pc]
      rintro ⟨⟩
    have spawned := supplied.resting (by rw [at_pc]; rintro ⟨⟩)
    refine ⟨conserves, supplied.accounts, supplied.roster, supplied.allocated, supplied.applied,
      fun idle => absurd (show _ ≠ AudioPc.idle by rintro ⟨⟩) idle, fun _ => supplied.kills busy,
      fun moved => absurd rfl moved, ?_, fun _ => ?_⟩
    · intro bound stop same
      cases same
    · refine Eq.trans ?_ (supplied.advance_due at_pc stopped)
      change ((thread.server.plane.wheelRx.wheel.advance blockEnd
        thread.server.plane.fired).2).drop thread.server.spawned = _
      rw [spawned, Wheel.advance_out, List.drop_left]
  simp only [ControlPlane.step] at stepped
  split at stepped
  · rename_i at_pc empty
    refine fires _ _ at_pc ?_ (Option.some.inj stepped).symm
    intro params rest held
    cases empty.symm.trans held
  · rename_i at_pc held
    split at stepped <;> cases stepped
    rename_i late
    refine fires _ _ at_pc ?_ rfl
    intro params rest same
    cases held.symm.trans same
    exact Nat.le_of_not_lt late
  · cases stepped

theorem drainKill (supplied : Supplied g thread) {next : AudioThread R}
    (taken : thread.step .drainKill = some next) : Supplied g next := by
  rcases Option.map_eq_some_iff.mp taken with ⟨server, begun, rfl⟩
  rcases Option.map_eq_some_iff.mp begun with ⟨plane, stepped, rfl⟩
  have conserves := supplied.conserves.step stepped
  simp only [ControlPlane.step] at stepped
  split at stepped <;> cases stepped
  rename_i req rx at_pc popped
  have applied := supplied.applied
  have busy : thread.InBlock := by
    rw [AudioThread.InBlock, at_pc]
    rintro ⟨⟩
  refine ⟨conserves, supplied.accounts, supplied.roster, supplied.allocated, ?_,
    fun idle => absurd busy idle, fun _ => ?_, fun moved => absurd at_pc moved, ?_,
    fun _ => supplied.draining at_pc⟩
  · change thread.server.applied ≤ (thread.server.plane.drainedKills ++ [req]).length
    rw [List.length_append]
    omega
  · change thread.given.kills =
      (thread.server.plane.drainedKills ++ [req]).drop thread.server.applied ++ rx.items
    rw [supplied.kills busy, List.drop_append_of_le_length applied,
      (BoundedFifo.pop_eq_some popped).1, List.append_assoc]
    rfl
  · intro bound stop same
    exact absurd (at_pc.symm.trans same) (by rintro ⟨⟩)

theorem endBlock (supplied : Supplied g thread) {choice : KeyChoice} {next : AudioThread R}
    (taken : thread.step (.endBlock choice) = some next) : Supplied g next := by
  rcases Option.map_eq_some_iff.mp taken with ⟨server, ended, rfl⟩
  rcases Option.bind_eq_some_iff.mp ended with ⟨plane, stepped, finished⟩
  rcases Option.map_eq_some_iff.mp finished with ⟨ready, prepared, rfl⟩
  have conserves := supplied.conserves.step stepped
  rcases supplied.roster with ⟨slots, represents⟩
  rcases ready_activeCount represents prepared with ⟨_, readySlots, readyRepresents⟩
  simp only [ControlPlane.step] at stepped
  split at stepped <;> cases stepped
  refine ⟨conserves, supplied.accounts, ⟨_, readyRepresents.finish _ _⟩, ?_, Nat.le_refl _,
    fun _ => rfl, fun busy => absurd rfl busy, fun _ => rfl, ?_, ?_⟩
  · refine supplied.allocated.trans ?_
    change _ ≤ if _ then _ else _
    split <;> omega
  · intro bound stop same
    cases same
  · intro same
    cases same

/-- What one step of any agent preserves. -/
theorem step (supplied : Supplied g thread) {label : ServerStep R} {next : AudioThread R}
    (taken : thread.step label = some next) : Supplied g next := by
  cases label with
  | addFof params =>
      cases taken
      have conserves := supplied.conserves.addFof params
      refine supplied.frame thread.server.control conserves ?_ ?_ ?_ ?_ ?_
      all_goals unfold ControlPlane.addFof; split <;> rfl
  | kill req =>
      cases taken
      have conserves := supplied.conserves.kill req
      refine supplied.frame thread.server.control conserves ?_ ?_ ?_ ?_ ?_
      all_goals unfold ControlPlane.kill; split <;> rfl
  | setClockMode mode =>
      cases taken
      exact supplied.frame _ supplied.conserves rfl rfl rfl rfl rfl
  | bridge => exact supplied.bridge taken
  | beginBlock cycle => exact supplied.beginBlock taken
  | admitNext => exact supplied.admitNext taken
  | advance => exact supplied.advance taken
  | drainKill => exact supplied.drainKill taken
  | endBlock choice => exact supplied.endBlock taken

/-- What a run preserves. -/
theorem run (supplied : Supplied g thread) (labels : List (ServerStep R)) :
    Supplied g (perform AudioThread.step thread labels) := by
  induction labels generalizing thread with
  | nil => exact supplied
  | cons label labels ih =>
      unfold perform
      rw [List.foldl_cons]
      cases taken : thread.step label with
      | none => exact ih supplied
      | some next => exact ih (supplied.step taken)

/-! ## One point of a block -/

/-- A block that was provisioned for stays inside the buffers at each of its points.  The keys
of the pool may be chosen in any way. -/
theorem withinScratch (supplied : Supplied g thread) (busy : thread.InBlock)
    (provisioned : Provisioned thread) : WithinScratch thread := by
  rcases supplied.roster with ⟨slots, represents⟩
  have front := supplied.incoming_prefix
  have rendered : ∀ choice ready, thread.server.ready choice = some ready →
      ready.activeCount ≤ initialCapacity := by
    intro choice ready prepared
    rw [(ready_activeCount represents prepared).1]
    exact (Nat.add_le_add_left front.length_le _).trans provisioned.active
  refine ⟨?_, fun fired drained => ?_, fun choice spawned drained => ?_,
    fun choice spawned drained => ?_, fun choice ready prepared => ?_,
    fun choice ready prepared => ?_, fun fits => ?_⟩
  · refine Nat.le_trans ?_ provisioned.kills
    rw [supplied.kills busy, List.length_append]
    exact Nat.le_add_right _ _
  · exact (drained.trans front).length_le.trans provisioned.due
  · rw [spawn_foldl_knownIds]
    exact (Set.encard_le_encard (Set.union_subset_union_right _
      (killableIds_mono (drained.trans front)))).trans provisioned.ids
  · rw [spawn_activeCount represents]
    exact (Nat.add_le_add_left (drained.trans front).length_le _).trans provisioned.active
  · have keys := rendered choice ready prepared
    rwa [RfofsEngine.activeCount, Slab.values, List.length_map,
      ← List.length_map (f := Prod.fst)] at keys
  · refine (List.length_filter_le _ _).trans ?_
    rw [RfofsEngine.render_values, List.length_map]
    exact rendered choice ready prepared
  · exact Nat.not_lt_of_le (fits.trans supplied.allocated)

/-- A block that is inside the buffers where its drains have come to an end was provisioned
for. -/
theorem provisioned (supplied : Supplied g thread) (drained : thread.Drained)
    (within : WithinScratch thread) : Provisioned thread := by
  rcases supplied.roster with ⟨slots, represents⟩
  rcases drained.queues with ⟨at_pc, empty⟩
  have whole := List.prefix_refl thread.server.incoming
  have fires := supplied.draining at_pc
  have ids := within.idMap KeyChoice.next _ whole
  have active := within.active KeyChoice.next _ whole
  rw [spawn_foldl_knownIds, fires] at ids
  rw [spawn_activeCount represents, fires] at active
  refine ⟨?_, fires ▸ within.incoming _ whole, ids, active⟩
  rw [supplied.kills drained.inBlock, empty, List.append_nil]
  exact within.killRequests

end Supplied

/-! ## Every run -/

/-- In every run of the server, however the client, the bridging thread and the blocks
interleave: where every block is provisioned for, with what has been given to it so far, no
buffer grows beyond its capacity at any point of a block; and where none does, every block
was provisioned for when its drains came to an end. -/
theorem scratch_suffices (sampleRate : R) (panMode : PanMode) (ingressCapacity : Nat)
    (device : DeviceBlock) (clockMode : ClockMode) (labels : List (ServerStep R)) :
    let reached := perform AudioThread.step
      (.start sampleRate panMode ingressCapacity device clockMode)
    ((∀ earlier, earlier <+: labels → (reached earlier).InBlock → Provisioned (reached earlier)) →
      ∀ earlier, earlier <+: labels → (reached earlier).InBlock →
        WithinScratch (reached earlier)) ∧
    ((∀ earlier, earlier <+: labels → (reached earlier).InBlock →
        WithinScratch (reached earlier)) →
      ∀ earlier, earlier <+: labels → (reached earlier).Drained →
        Provisioned (reached earlier)) := by
  intro reached
  have supplied : ∀ earlier, Supplied device.geometry (reached earlier) := fun earlier =>
    (Supplied.start sampleRate panMode ingressCapacity device clockMode).run earlier
  refine ⟨fun provided earlier front busy => ?_, fun within earlier front drained => ?_⟩
  · exact (supplied earlier).withinScratch busy (provided earlier front busy)
  · exact (supplied earlier).provisioned drained (within earlier front drained.inBlock)

end Blocks

/-! ## A burst of kill requests -/

/-- A client kills the grain with the id one, and the request is forwarded. -/
def killOnce : List (ServerStep ℝ) := [.kill ⟨1, 0⟩, .bridge, .bridge, .bridge]

/-- Sixty-five kill requests wait when a block begins, and the block drains them.  The queue
has room for them. -/
def killBurst : List (ServerStep ℝ) :=
  (List.replicate 65 killOnce).flatten ++
    .beginBlock ⟨256, 0, none⟩ :: .advance :: List.replicate 65 .drainKill

set_option maxRecDepth 20000 in
/-- They fit the queue, and not the buffer into which the block drains it. -/
theorem kills_outgrow_scratch :
    let thread := perform AudioThread.step
      (.start (48000 : ℝ) .stereo 4096 ⟨256, by decide, by decide⟩ .jackFrameTime) killBurst
    thread.InBlock ∧ ¬ WithinScratch thread := by
  intro thread
  have drained : thread.server.killRequests.length = 65 := rfl
  have busy : thread.server.plane.audio = .drainingKills := rfl
  refine ⟨?_, fun within => ?_⟩
  · rw [AudioThread.InBlock, busy]
    rintro ⟨⟩
  · have taken := within.killRequests
    rw [drained] at taken
    exact absurd taken (by decide)

end Control
end Rfofs
