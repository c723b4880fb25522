import Rfofs.Engine.Offline

namespace Rfofs
namespace Engine

open Foundation
open Grain
open Queue

/-!
# What the offline renderer covers

The slot of an onset elapses in one block, its fire block, and the request is spawned
in this block or never.  It is never spawned when it could not be admitted before: a
request is consumed from the ring when it lies within the horizon at the beginning
of a block, and a block that is longer than the horizon can pass it by.  And it is not
spawned when the renderer is closed before its fire block, because the last grain has
died or because the limit is reached.

`Progress` describes the renderer after a number of blocks.  It says what is active in
terms of grains that are rendered on their own, so the blocks that `close` renders
are determined by the submitted grains.
-/

variable {R : Type*}

/-! ## Fire blocks -/

/-- The block in which the slot of an onset elapses.  Blocks start at zero and have one
length, so the number is a function of the request. -/
def fireBlock (blockSize : Nat) (params : FofParams R) : Nat :=
  ((slotNumber offlineGeometry params + 1) * offlineGeometry.duration - 1) / blockSize

theorem le_fireBlock_iff {blockSize : Nat} (positive : 0 < blockSize) (params : FofParams R)
    (j : Nat) :
    j ≤ fireBlock blockSize params ↔
      j * blockSize / offlineGeometry.duration ≤ slotNumber offlineGeometry params := by
  rw [fireBlock, Nat.le_div_iff_mul_le positive]
  change j * blockSize ≤ (_ + 1) * 256 - 1 ↔ j * blockSize / 256 ≤ _
  omega

theorem fireBlock_lt_iff {blockSize : Nat} (positive : 0 < blockSize) (params : FofParams R)
    (j : Nat) :
    fireBlock blockSize params < j ↔
      slotNumber offlineGeometry params < j * blockSize / offlineGeometry.duration := by
  rw [← Nat.not_le, le_fireBlock_iff positive, Nat.not_le]

/-- The onset lies within the horizon when its fire block begins.  Otherwise the block passes
its slot before the wheel has taken the request out of the ring. -/
def Admissible (blockSize : Nat) (params : FofParams R) : Prop :=
  params.startSample <
    fireBlock blockSize params * blockSize / offlineGeometry.duration * offlineGeometry.duration +
      offlineGeometry.slots * offlineGeometry.duration

theorem admissible_of_window {blockSize : Nat} {params : FofParams R} {j : Nat}
    (early : j ≤ fireBlock blockSize params)
    (inside : params.startSample < j * blockSize / offlineGeometry.duration *
      offlineGeometry.duration + offlineGeometry.slots * offlineGeometry.duration) :
    Admissible blockSize params := by
  apply inside.trans_le
  apply Nat.add_le_add_right
  apply Nat.mul_le_mul_right
  exact Nat.div_le_div_right (Nat.mul_le_mul_right _ early)

/-- With blocks that are made up of whole slots the fire block of an onset is the block
that contains it. -/
theorem fireBlock_of_dvd {blockSize : Nat} (aligned : offlineGeometry.duration ∣ blockSize)
    (params : FofParams R) : fireBlock blockSize params = params.startSample / blockSize := by
  rcases aligned with ⟨slots, rfl⟩
  have slot : ((slotNumber offlineGeometry params + 1) * offlineGeometry.duration - 1) /
      offlineGeometry.duration = slotNumber offlineGeometry params := by
    change ((_ + 1) * 256 - 1) / 256 = _
    omega
  rw [fireBlock, ← Nat.div_div_eq_div_mul, ← Nat.div_div_eq_div_mul, slot]
  rfl

/-- Blocks that are no longer than the horizon pass nothing by.  For them the condition holds
of every request. -/
theorem admissible_of_le_horizon {blockSize : Nat} (positive : 0 < blockSize)
    (short : blockSize ≤ offlineGeometry.slots * offlineGeometry.duration)
    (params : FofParams R) : Admissible blockSize params := by
  have next := Nat.lt_succ_self (fireBlock blockSize params)
  rw [Nat.succ_eq_add_one, fireBlock_lt_iff positive, Nat.succ_mul] at next
  have slot : params.startSample / 256 = slotNumber offlineGeometry params := rfl
  change slotNumber offlineGeometry params <
    (fireBlock blockSize params * blockSize + blockSize) / 256 at next
  change blockSize ≤ 65536 at short
  change params.startSample < fireBlock blockSize params * blockSize / 256 * 256 + 65536
  omega

/-- Requests that the queue does not reject: in order, sparse, and each admissible.  Sparse
means that no slot is asked to hold more requests than it has room for. -/
structure Servable (blockSize : Nat) (fofs : List (FofParams R)) : Prop where
  sorted : fofs.Pairwise (fun x y => x.startSample ≤ y.startSample)
  sparse : ∀ k, (keyClass (slotNumber offlineGeometry) k fofs).length ≤ offlineGeometry.capacity
  admissible : ∀ params ∈ fofs, Admissible blockSize params

theorem Servable.sublist {blockSize : Nat} {fofs others : List (FofParams R)}
    (servable : Servable blockSize others) (included : fofs.Sublist others) :
    Servable blockSize fofs where
  sorted := servable.sorted.sublist included
  sparse k := (included.filter _).length_le.trans (servable.sparse k)
  admissible params member := servable.admissible params (included.subset member)

section Blocks

variable [Field R] [LinearOrder R] [FloorRing R] [RealOps R]

/-! ## Grains on their own -/

/-- One block of a grain; the samples do not matter here.  Only the phase and the counters
decide when it is dead. -/
def ageBlock (blockSize : Nat) (grain : FofState R) (k : Nat) : FofState R :=
  (grain.fillBlock (k * blockSize) (List.replicate blockSize 0)).1

/-- A grain that is spawned in its fire block, after the first `j` blocks.  It has been
rendered in its fire block and in every block since. -/
def grainAt (sampleRate : R) (blockSize j : Nat) (params : FofParams R) : FofState R :=
  (List.range' (fireBlock blockSize params) (j - fireBlock blockSize params)).foldl
    (ageBlock blockSize) (FofState.spawn params sampleRate)

def Alive (grain : FofState R) : Bool := decide (grain.phase ≠ .dead)

theorem grainAt_fireBlock (sampleRate : R) (blockSize : Nat) (params : FofParams R) :
    grainAt sampleRate blockSize (fireBlock blockSize params) params =
      FofState.spawn params sampleRate := by
  rw [grainAt, Nat.sub_self]
  rfl

theorem grainAt_succ (sampleRate : R) {blockSize j : Nat} {params : FofParams R}
    (fired : fireBlock blockSize params ≤ j) :
    grainAt sampleRate blockSize (j + 1) params =
      ageBlock blockSize (grainAt sampleRate blockSize j params) j := by
  have length : j + 1 - fireBlock blockSize params = j - fireBlock blockSize params + 1 := by
    omega
  have last : fireBlock blockSize params + (j - fireBlock blockSize params) = j := by omega
  rw [grainAt, grainAt, length, List.range'_1_concat, List.foldl_append, last]
  rfl

/-- The dead do not come back.  Filtering before a block and after it therefore gives the same
grains as filtering once. -/
theorem filter_alive_age (blockSize k : Nat) (grains : List (FofState R)) :
    ((grains.filter Alive).map (fun grain => ageBlock blockSize grain k)).filter Alive =
      (grains.map (fun grain => ageBlock blockSize grain k)).filter Alive := by
  induction grains with
  | nil => rfl
  | cons grain grains ih =>
      by_cases alive : Alive grain = true
      · rw [List.filter_cons_of_pos alive, List.map_cons, List.map_cons, List.filter_cons,
          List.filter_cons, ih]
      · have dead : grain.phase = .dead := by simpa [Alive] using alive
        have stays : ageBlock blockSize grain k = grain := by
          unfold ageBlock FofState.fillBlock
          rw [if_pos dead]
        rw [List.filter_cons_of_neg alive, List.map_cons, List.filter_cons_of_neg (by rwa [stays]),
          ih]

/-- One block of the pool and one block of every grain on its own.  The pool may hold its
grains in any order. -/
theorem aged_perm (sampleRate : R) {blockSize j : Nat} {values : List (FofState R)}
    {fired incoming : List (FofParams R)}
    (active : values.Perm ((fired.map (grainAt sampleRate blockSize j)).filter Alive))
    (old : ∀ params ∈ fired, fireBlock blockSize params ≤ j)
    (new : ∀ params ∈ incoming, fireBlock blockSize params = j) :
    (((values ++ incoming.map (fun params => FofState.spawn params sampleRate)).map
      (fun grain => ageBlock blockSize grain j)).filter Alive).Perm
        (((fired ++ incoming).map (grainAt sampleRate blockSize (j + 1))).filter Alive) := by
  have agedOld : (fired.map (grainAt sampleRate blockSize j)).map
      (fun grain => ageBlock blockSize grain j) =
        fired.map (grainAt sampleRate blockSize (j + 1)) := by
    rw [List.map_map]
    apply List.map_congr_left
    intro params member
    exact (grainAt_succ sampleRate (old params member)).symm
  have agedNew : (incoming.map (fun params => FofState.spawn params sampleRate)).map
      (fun grain => ageBlock blockSize grain j) =
        incoming.map (grainAt sampleRate blockSize (j + 1)) := by
    rw [List.map_map]
    apply List.map_congr_left
    intro params member
    rw [grainAt_succ sampleRate (le_of_eq (new params member)), ← new params member,
      grainAt_fireBlock]
    rfl
  have aged := (active.map (fun grain => ageBlock blockSize grain j)).filter Alive
  rw [filter_alive_age, agedOld] at aged
  rw [List.map_append, List.map_append, List.filter_append, List.filter_append, agedNew]
  exact aged.append_right _

/-! ## The renderer after a number of blocks -/

/-- The renderer after `j` blocks, when `fofs` have been submitted.  The pool holds the grains
of the fired requests that are alive, each with the age that its fire block gives it. -/
structure Progress (config : OfflineConfig R) (fofs : List (FofParams R)) (j : Nat)
    (consumer : TimeWheelConsumer R) (r : OfflineRenderer R) : Prop where
  unchanged : r.toOfflineConfig = config
  live : Live offlineGeometry consumer r.session
  pushed : r.session.ledger.pushed = fofs
  clock : r.clock = j * config.blockSize
  slotIndex : consumer.wheel.slotIndex = j * config.blockSize / offlineGeometry.duration
  room : consumer.rx.capacity = 4096
  unkilled : r.session.engine.killRx.rx.items = []
  rate : r.session.engine.sampleRate = config.sampleRate
  active : r.session.engine.active.values.Perm
    ((r.session.ledger.fired.map (grainAt config.sampleRate config.blockSize j)).filter Alive)
  taken : ∀ params ∈ accepted r.session.ledger.log, Admissible config.blockSize params
  served : Servable config.blockSize fofs →
    (∀ params ∈ consumer.rx.items,
      consumer.wheel.slotIndex ≤ slotNumber offlineGeometry params) ∧
    rejected r.session.ledger.log = []

namespace Progress

variable {config : OfflineConfig R} {fofs : List (FofParams R)} {j : Nat}
  {consumer : TimeWheelConsumer R} {r : OfflineRenderer R}

theorem openFile (sampleRate : R) (panMode : PanMode) (blockSize : Nat)
    (blockSize_pos : 0 < blockSize) :
    Progress ⟨sampleRate, blockSize, panMode.channelCount, blockSize_pos⟩ [] 0
      (freshWheel 4096 offlineGeometry false)
      (OfflineRenderer.openFile sampleRate panMode blockSize blockSize_pos) where
  unchanged := rfl
  live := Live.start sampleRate panMode 4096 offlineGeometry false 256 0
  pushed := rfl
  clock := (Nat.zero_mul blockSize).symm
  slotIndex := by
    rw [Nat.zero_mul, Nat.zero_div]
    rfl
  room := rfl
  unkilled := rfl
  rate := rfl
  active := List.Perm.nil
  taken := nofun
  served := fun _ => ⟨nofun, rfl⟩

/-- The slot of the read head starts at the wheel's time. -/
theorem slotIndex_le_iff (progress : Progress config fofs j consumer r) (params : FofParams R) :
    consumer.wheel.slotIndex ≤ slotNumber offlineGeometry params ↔
      consumer.wheel.wheelTime ≤ params.startSample := by
  rw [progress.live.balanced.wheel.wheelTime_eq]
  exact Nat.le_div_iff_mul_le offlineGeometry.duration_pos

theorem fired_before (progress : Progress config fofs j consumer r) :
    ∀ params ∈ r.session.ledger.fired, fireBlock config.blockSize params < j := by
  intro params member
  rw [progress.live.balanced.wheel.fired_eq] at member
  apply (fireBlock_lt_iff config.blockSize_pos params j).mpr
  rw [← progress.slotIndex]
  exact (mem_orderedBelow.mp member).2

/-- What the next block fires has it as its fire block.  Neither an earlier nor a later block
could have fired it. -/
theorem incoming_now (progress : Progress config fofs j consumer r) :
    ∀ params ∈ r.session.engine.incoming config.blockSize,
      fireBlock config.blockSize params = j := by
  intro params member
  have reached := progress.live.mem_incoming member
  rw [progress.live.incoming_eq,
    TimeWheelConsumer.drainBlockSafe_fires progress.live.balanced.wheel] at member
  have elapsed := (mem_orderedFrom.mp member).2.2
  rw [progress.live.drain_slotIndex, progress.slotIndex] at elapsed
  rw [progress.slotIndex] at reached
  have clock : r.session.engine.sampleClock = j * config.blockSize := progress.clock
  rw [clock, ← Nat.succ_mul] at elapsed
  have early := (le_fireBlock_iff config.blockSize_pos params j).mpr reached
  have late : fireBlock config.blockSize params < j + 1 := by
    apply (fireBlock_lt_iff config.blockSize_pos params (j + 1)).mpr
    have forward : j * config.blockSize / offlineGeometry.duration ≤
        (j + 1) * config.blockSize / offlineGeometry.duration :=
      Nat.div_le_div_right (Nat.mul_le_mul_right _ (Nat.le_succ j))
    rw [Nat.succ_eq_add_one, Nat.max_eq_right forward] at elapsed
    omega
  omega

theorem block_active (progress : Progress config fofs j consumer r) {choice : KeyChoice}
    {engine : RfofsEngine R} {outputs rendered : List (List R)}
    (processed : r.session.engine.processBlock choice outputs config.blockSize =
      some (engine, rendered)) :
    engine.active.values.Perm (((r.session.ledger.fired ++
      r.session.engine.incoming config.blockSize).map
        (grainAt config.sampleRate config.blockSize (j + 1))).filter Alive) := by
  have clock : r.session.engine.sampleClock = j * config.blockSize := progress.clock
  have values := RfofsEngine.processBlock_values choice progress.live.tracked progress.unkilled
    processed
  rw [progress.rate, clock] at values
  exact values.trans (aged_perm config.sampleRate progress.active
    (fun params member => le_of_lt (progress.fired_before params member)) progress.incoming_now)

/-- What the next block accepts is admissible. -/
theorem block_taken (progress : Progress config fofs j consumer r) :
    ∀ params ∈ accepted consumer.blockVerdicts, Admissible config.blockSize params := by
  intro params member
  rcases List.mem_map.mp member with ⟨verdict, kept, rfl⟩
  rcases List.mem_filter.mp kept with ⟨listed, taken⟩
  have reached := (progress.slotIndex_le_iff verdict.1).mpr (verdicts_reached listed taken)
  have inside := verdicts_before listed
  rw [progress.slotIndex] at reached
  rw [progress.live.balanced.wheel.wheelTime_eq, progress.live.balanced.wheel.horizon_eq,
    progress.slotIndex] at inside
  exact admissible_of_window ((le_fireBlock_iff config.blockSize_pos _ j).mpr reached) inside

/-- What the next block leaves in the ring has a later fire block. -/
theorem block_waiting (progress : Progress config fofs j consumer r)
    (servable : Servable config.blockSize fofs) (blockStart blockSize : Nat) :
    ∀ params ∈ (consumer.drainBlockSafe blockStart blockSize []).1.rx.items,
      (j + 1) * config.blockSize / offlineGeometry.duration ≤
        slotNumber offlineGeometry params := by
  intro params member
  have ring := consumer.drainBlockSafe_ring blockStart blockSize []
  have waiting : params ∈ consumer.rx.items := by
    rw [← ring]
    exact List.mem_append_right _ member
  have submitted : params ∈ fofs := by
    rw [← progress.pushed, ← progress.live.balanced.ring]
    exact List.mem_append_right _ waiting
  have waitingSorted : consumer.rx.items.Pairwise (fun x y => x.startSample ≤ y.startSample) := by
    have whole := servable.sorted
    rw [← progress.pushed, ← progress.live.balanced.ring] at whole
    exact (List.pairwise_append.mp whole).2.1
  have beyond := admitReady_beyond waitingSorted params member
  rw [progress.live.balanced.wheel.wheelTime_eq, progress.live.balanced.wheel.horizon_eq,
    progress.slotIndex] at beyond
  have ahead := (progress.served servable).1 params waiting
  rw [progress.slotIndex] at ahead
  have notBefore := (le_fireBlock_iff config.blockSize_pos params j).mpr ahead
  have notNow : fireBlock config.blockSize params ≠ j := by
    intro now
    have admissible := servable.admissible params submitted
    rw [Admissible, now] at admissible
    exact Nat.not_lt_of_le beyond admissible
  exact (le_fireBlock_iff config.blockSize_pos params (j + 1)).mp (by omega)

/-- One block.  It renders the pool, and everything that it accepts is admissible. -/
theorem block (progress : Progress config fofs j consumer r) (choice : KeyChoice) :
    ∃ next nextConsumer, r.processOneBlock choice = .ok next ∧
      next.lastStartSample = r.lastStartSample ∧
      Progress config fofs (j + 1) nextConsumer next := by
  rcases progress.unchanged with rfl
  obtain ⟨engine, rendered, processed, blocked, done, _, nextLive⟩ := progress.live.block choice
    (List.replicate r.nChannels (List.replicate r.blockSize 0)) r.blockSize
  have clock : r.session.engine.sampleClock = j * r.blockSize := progress.clock
  have log := progress.live.recordBlock_log engine r.blockSize
  have forward : j * r.blockSize / offlineGeometry.duration ≤
      (j + 1) * r.blockSize / offlineGeometry.duration :=
    Nat.div_le_div_right (Nat.mul_le_mul_right _ (Nat.le_succ j))
  have slotIndex : (consumer.drainBlockSafe r.session.engine.sampleClock r.blockSize
      []).1.wheel.slotIndex = (j + 1) * r.blockSize / offlineGeometry.duration := by
    rw [progress.live.drain_slotIndex, progress.slotIndex, clock, ← Nat.succ_mul,
      Nat.succ_eq_add_one, Nat.max_eq_right forward]
  refine ⟨{ r with
      session := r.session.recordBlock engine r.blockSize
      written := r.written ++ OfflineRenderer.interleave r.blockSize rendered },
    _, ?_, rfl, ⟨rfl, nextLive, progress.pushed, ?_, slotIndex, progress.room, ?_, ?_, ?_, ?_, ?_⟩⟩
  · simp only [OfflineRenderer.processOneBlock]
    rw [blocked]
  · change engine.sampleClock = _
    rw [done.sampleClock, clock, ← Nat.succ_mul]
  · change engine.killRx.rx.items = []
    rw [done.killRx]
    rfl
  · exact done.sampleRate.trans progress.rate
  · exact progress.block_active processed
  · change ∀ params ∈ accepted (r.session.recordBlock engine r.blockSize).ledger.log, _
    rw [log, accepted_append]
    intro params member
    rcases List.mem_append.mp member with old | new
    · exact progress.taken params old
    · exact progress.block_taken params new
  · intro servable
    rcases progress.served servable with ⟨ahead, kept⟩
    constructor
    · rw [slotIndex]
      exact progress.block_waiting servable _ _
    · change rejected (r.session.recordBlock engine r.blockSize).ledger.log = []
      rw [log, rejected_append, kept, List.nil_append]
      apply progress.live.balanced.blockVerdicts_accepted
      · intro params member
        exact (progress.slotIndex_le_iff params).mp (ahead params member)
      · rw [progress.pushed]
        exact servable.sparse

end Progress

end Blocks

end Engine
end Rfofs
