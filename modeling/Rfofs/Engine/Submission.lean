import Rfofs.Engine.Coverage
import Rfofs.Grain.SampleMachine

namespace Rfofs
namespace Engine

open Foundation
open Grain
open Queue

/-!
# Submitting and closing

The blocks that a renderer renders are determined by the submitted grains: first
those up to the block that contains the last onset, then one after the other while a
grain is active.  A request is spawned when its fire block is among them and it could
be admitted, so whether nothing is lost can be read off the submission.

A slot ends 256 samples after it began, but a block may end earlier.  Then the block
of the last onset need not be a fire block, and `close` may find no active grain while
requests wait in the wheel.
-/

variable {R : Type*}

/-- The onset of the last submission.  It is zero before there is one. -/
def lastStart (fofs : List (FofParams R)) : Nat :=
  (fofs.getLast?.map FofParams.startSample).getD 0

theorem lastStart_append (fofs : List (FofParams R)) (params : FofParams R) :
    lastStart (fofs ++ [params]) = params.startSample := by
  rw [lastStart, List.getLast?_concat]
  rfl

theorem lastStart_le {fofs : List (FofParams R)} {startSample : Nat}
    (below : ∀ params ∈ fofs, params.startSample ≤ startSample) :
    lastStart fofs ≤ startSample := by
  unfold lastStart
  cases last : fofs.getLast? with
  | none => exact Nat.zero_le _
  | some params => exact below params (List.mem_of_getLast? last)

theorem le_lastStart {fofs : List (FofParams R)}
    (sorted : fofs.Pairwise (fun x y => x.startSample ≤ y.startSample)) :
    ∀ params ∈ fofs, params.startSample ≤ lastStart fofs := by
  rcases List.eq_nil_or_concat' fofs with rfl | ⟨before, last, rfl⟩
  · exact nofun
  · intro params member
    rw [lastStart_append]
    rcases List.mem_append.mp member with earlier | same
    · exact (List.pairwise_append.mp sorted).2.2 params earlier last (List.mem_singleton_self last)
    · exact le_of_eq (congrArg FofParams.startSample (List.mem_singleton.mp same))

variable [Field R] [LinearOrder R] [FloorRing R] [RealOps R]

/-! ## What has been fired -/

namespace Progress

variable {config : OfflineConfig R} {fofs : List (FofParams R)} {j : Nat}
  {consumer : TimeWheelConsumer R} {r : OfflineRenderer R}

/-- Servable requests are fired in their fire blocks.  After `j` blocks the fired ones are
those whose fire block has passed. -/
theorem fired_perm (progress : Progress config fofs j consumer r)
    (servable : Servable config.blockSize fofs) :
    r.session.ledger.fired.Perm
      (fofs.filter (fun params => decide (fireBlock config.blockSize params < j))) := by
  rcases progress.served servable with ⟨ahead, kept⟩
  have elapsed : ∀ params : FofParams R, fireBlock config.blockSize params < j ↔
      slotNumber offlineGeometry params < consumer.wheel.slotIndex := by
    intro params
    rw [progress.slotIndex]
    exact fireBlock_lt_iff config.blockSize_pos params j
  have waiting : consumer.rx.items.filter
      (fun params => decide (fireBlock config.blockSize params < j)) = [] := by
    apply List.filter_eq_nil_iff.mpr
    intro params member
    rw [decide_eq_true_eq, elapsed]
    exact Nat.not_lt_of_le (ahead params member)
  have all := accepted_append_rejected_perm r.session.ledger.log
  rw [kept, List.append_nil] at all
  rw [progress.live.balanced.wheel.fired_eq]
  apply (orderedBelow_perm _ _).trans
  rw [← progress.pushed, ← progress.live.balanced.ring, List.filter_append, waiting,
    List.append_nil]
  have same : (fun params : FofParams R =>
      decide (slotNumber offlineGeometry params < consumer.wheel.slotIndex)) =
        fun params => decide (fireBlock config.blockSize params < j) := by
    funext params
    exact decide_eq_decide.mpr (elapsed params).symm
  rw [same]
  exact all.filter _

end Progress

/-- Some grain is active after `j` blocks. -/
def Sounding (config : OfflineConfig R) (fofs : List (FofParams R)) (j : Nat) : Prop :=
  ∃ params ∈ fofs, fireBlock config.blockSize params < j ∧
    Alive (grainAt config.sampleRate config.blockSize j params) = true

theorem Progress.activeCount_eq_zero_iff {config : OfflineConfig R} {fofs : List (FofParams R)}
    {j : Nat} {consumer : TimeWheelConsumer R} {r : OfflineRenderer R}
    (progress : Progress config fofs j consumer r)
    (servable : Servable config.blockSize fofs) :
    r.session.engine.activeCount = 0 ↔ ¬ Sounding config fofs j := by
  have fired : ∀ params, params ∈ r.session.ledger.fired ↔
      params ∈ fofs ∧ fireBlock config.blockSize params < j := by
    intro params
    rw [(progress.fired_perm servable).mem_iff, List.mem_filter, decide_eq_true_eq]
  rw [RfofsEngine.activeCount, progress.active.length_eq, List.length_eq_zero_iff,
    List.filter_eq_nil_iff]
  constructor
  · rintro silent ⟨params, submitted, before, alive⟩
    exact silent _ (List.mem_map_of_mem ((fired params).mpr ⟨submitted, before⟩)) alive
  · intro silent grain member alive
    rcases List.mem_map.mp member with ⟨params, listed, rfl⟩
    rcases (fired params).mp listed with ⟨submitted, before⟩
    exact silent ⟨params, submitted, before, alive⟩

/-! ## The loops -/

namespace Progress

variable {config : OfflineConfig R} {fofs : List (FofParams R)} {j : Nat}
  {consumer : TimeWheelConsumer R} {r : OfflineRenderer R}

/-- A request that does not lie behind the clock is pushed, or the ring is full. -/
theorem push (progress : Progress config fofs j consumer r) {params : FofParams R}
    (ahead : r.clock ≤ params.startSample) :
    (∃ session nextConsumer, r.session.push params = some session ∧
      Progress config (fofs ++ [params]) j nextConsumer { r with session := session }) ∨
    (r.session.push params = none ∧ 4096 ≤ fofs.length) := by
  rcases progress.live.push params with ⟨rx, engine, rfl, pushed, items, capacity, nextLive⟩ |
    ⟨refused, full⟩
  · refine Or.inl ⟨_, _, pushed, progress.unchanged, nextLive, ?_, progress.clock,
      progress.slotIndex, capacity.trans progress.room, progress.unkilled, progress.rate,
      progress.active, progress.taken, ?_⟩
    · exact congrArg (· ++ [params]) progress.pushed
    · intro servable
      rcases progress.served (servable.sublist (List.sublist_append_left fofs [params])) with
        ⟨waiting, kept⟩
      refine ⟨?_, kept⟩
      change ∀ other ∈ rx.items, consumer.wheel.slotIndex ≤ slotNumber offlineGeometry other
      rw [items]
      intro other member
      rcases List.mem_append.mp member with old | new
      · exact waiting other old
      · rw [List.mem_singleton.mp new, progress.slotIndex, ← progress.clock]
        exact Nat.div_le_div_right ahead
  · right
    refine ⟨refused, ?_⟩
    rw [← progress.pushed, ← progress.live.balanced.ring, List.length_append, full, progress.room]
    exact Nat.le_add_left _ _

/-- The loop stops after the block in which the next one would reach the bound. -/
theorem advanceTo (progress : Progress config fofs j consumer r) (choice : KeyChoice)
    (bound : Nat) :
    ∃ next last nextConsumer, r.advanceTo choice bound = .ok next ∧
      next.lastStartSample = r.lastStartSample ∧ Progress config fofs last nextConsumer next ∧
      bound ≤ (last + 1) * config.blockSize ∧
      (last = j ∨ last * config.blockSize < bound) := by
  have block : ∀ r, (∃ j consumer, Progress config fofs j consumer r) →
      ∃ next, r.processOneBlock choice = .ok next ∧
        ∃ j consumer, Progress config fofs j consumer next := by
    rintro r ⟨j, consumer, progress⟩
    rcases progress.block choice with ⟨next, nextConsumer, processed, _, nextProgress⟩
    exact ⟨next, processed, j + 1, nextConsumer, nextProgress⟩
  rcases OfflineRenderer.advanceTo_invariant block bound ⟨j, consumer, progress⟩ with
    ⟨next, ran, ⟨last, nextConsumer, nextProgress⟩, _, sameLast, reached, within⟩
  have size : r.blockSize = config.blockSize :=
    congrArg OfflineConfig.blockSize progress.unchanged
  refine ⟨next, last, nextConsumer, ran, sameLast, nextProgress, ?_, ?_⟩
  · rw [size, nextProgress.clock, ← Nat.succ_mul] at reached
    exact reached
  · rcases within with rfl | before
    · left
      have same : last * config.blockSize = j * config.blockSize :=
        nextProgress.clock.symm.trans progress.clock
      exact Nat.eq_of_mul_eq_mul_right config.blockSize_pos same
    · rw [nextProgress.clock] at before
      exact Or.inr before

/-- The tail stops at the limit, or when the renderer falls silent. -/
theorem renderTail (progress : Progress config fofs j consumer r) (choice : KeyChoice)
    (extra : Nat) :
    ∃ next last nextConsumer, r.renderTail choice extra = .ok next ∧
      Progress config fofs last nextConsumer next ∧ j ≤ last ∧ last ≤ j + extra ∧
      (Servable config.blockSize fofs →
        (∀ i, j ≤ i → i < last → Sounding config fofs i) ∧
        (last = j + extra ∨ ¬ Sounding config fofs last)) := by
  induction extra generalizing j consumer r with
  | zero =>
      refine ⟨r, j, consumer, rfl, progress, Nat.le_refl _, Nat.le_refl _, fun _ => ⟨?_, Or.inl rfl⟩⟩
      intro i above below
      omega
  | succ extra ih =>
      unfold OfflineRenderer.renderTail
      split
      · rename_i silent
        refine ⟨r, j, consumer, rfl, progress, Nat.le_refl _, Nat.le_add_right _ _, ?_⟩
        intro servable
        refine ⟨?_, Or.inr ((progress.activeCount_eq_zero_iff servable).mp silent)⟩
        intro i above below
        omega
      · rename_i busy
        rcases progress.block choice with ⟨next, nextConsumer, processed, _, nextProgress⟩
        rcases ih nextProgress with
          ⟨final, last, finalConsumer, ran, finalProgress, later, within, sounds⟩
        refine ⟨final, last, finalConsumer, ?_, finalProgress, by omega, by omega, ?_⟩
        · rw [processed]
          exact ran
        · intro servable
          rcases sounds servable with ⟨between, stopped⟩
          constructor
          · intro i above below
            rcases Nat.eq_or_lt_of_le above with rfl | after
            · by_contra silent
              exact busy ((progress.activeCount_eq_zero_iff servable).mpr silent)
            · exact between i after below
          · rcases stopped with limit | silent
            · exact Or.inl (by omega)
            · exact Or.inr silent

end Progress

/-! ## Submissions -/

/-- The renderer between two calls: its clock stays behind the last onset. -/
structure Submitted (config : OfflineConfig R) (fofs : List (FofParams R)) (j : Nat)
    (consumer : TimeWheelConsumer R) (r : OfflineRenderer R) : Prop where
  progress : Progress config fofs j consumer r
  last : r.lastStartSample = lastStart fofs
  behind : r.clock ≤ lastStart fofs

namespace Submitted

variable {config : OfflineConfig R} {fofs : List (FofParams R)} {j : Nat}
  {consumer : TimeWheelConsumer R} {r : OfflineRenderer R}

theorem addFof (submitted : Submitted config fofs j consumer r) (choice : KeyChoice)
    {params : FofParams R} (ordered : lastStart fofs ≤ params.startSample) :
    (∃ next last nextConsumer, r.addFof choice params = .ok next ∧
      Submitted config (fofs ++ [params]) last nextConsumer next) ∨
    (r.addFof choice params = .error .timeWheelFull ∧ 4096 ≤ fofs.length) := by
  have monotonic : r.lastStartSample ≤ params.startSample := by
    rw [submitted.last]
    exact ordered
  have ahead : r.clock ≤ params.startSample := submitted.behind.trans ordered
  unfold OfflineRenderer.addFof
  rw [if_pos monotonic]
  rcases submitted.progress.push ahead with ⟨session, middle, pushed, progress⟩ | ⟨refused, full⟩
  · rcases progress.advanceTo choice params.startSample with
      ⟨next, last, nextConsumer, ran, _, nextProgress, _, within⟩
    refine Or.inl ⟨{ next with lastStartSample := params.startSample }, last, nextConsumer, ?_, ?_⟩
    · rw [pushed]
      simp only
      rw [ran]
      rfl
    · refine ⟨?_, (lastStart_append fofs params).symm, ?_⟩
      · exact ⟨nextProgress.unchanged, nextProgress.live, nextProgress.pushed, nextProgress.clock,
          nextProgress.slotIndex, nextProgress.room, nextProgress.unkilled, nextProgress.rate,
          nextProgress.active, nextProgress.taken, nextProgress.served⟩
      · rw [lastStart_append]
        have clock := nextProgress.clock
        change next.clock ≤ params.startSample
        rcases within with rfl | before
        · rw [clock, ← submitted.progress.clock]
          exact ahead
        · rw [clock]
          exact le_of_lt before
  · rw [refused]
    exact Or.inr ⟨rfl, full⟩

/-- Submissions in order are all taken, unless the ring is full before one of them.  The
induction is on the list. -/
theorem addFofs (submitted : Submitted config fofs j consumer r) (choice : KeyChoice)
    (rest : List (FofParams R))
    (sorted : (fofs ++ rest).Pairwise (fun x y => x.startSample ≤ y.startSample)) :
    (∃ next last nextConsumer, rest.foldlM (OfflineRenderer.addFof choice) r = .ok next ∧
      Submitted config (fofs ++ rest) last nextConsumer next) ∨
    (rest.foldlM (OfflineRenderer.addFof choice) r = .error .timeWheelFull ∧
      4096 < (fofs ++ rest).length) := by
  induction rest generalizing fofs j consumer r with
  | nil =>
      rw [List.append_nil]
      exact Or.inl ⟨r, j, consumer, rfl, submitted⟩
  | cons params rest ih =>
      have ordered : lastStart fofs ≤ params.startSample :=
        lastStart_le (fun earlier member =>
          (List.pairwise_append.mp sorted).2.2 earlier member params List.mem_cons_self)
      have regrouped : fofs ++ params :: rest = (fofs ++ [params]) ++ rest := by
        rw [List.append_assoc]
        rfl
      rw [List.foldlM_cons]
      rcases submitted.addFof choice ordered with ⟨next, last, nextConsumer, added, nextSubmitted⟩ |
        ⟨refused, full⟩
      · rw [added, regrouped]
        rw [regrouped] at sorted
        exact ih nextSubmitted sorted
      · rw [refused]
        refine Or.inr ⟨rfl, ?_⟩
        rw [List.length_append, List.length_cons]
        omega

/-- Closing renders the block of the last onset and then the tail.  Neither loop runs for
ever. -/
theorem close (submitted : Submitted config fofs j consumer r) (choice : KeyChoice) :
    ∃ next last nextConsumer, r.close choice = .ok next ∧
      Progress config fofs last nextConsumer next ∧
      lastStart fofs / config.blockSize < last ∧
      last ≤ lastStart fofs / config.blockSize + 1 + OfflineRenderer.maxExtra config ∧
      (Servable config.blockSize fofs →
        (∀ i, lastStart fofs / config.blockSize < i → i < last → Sounding config fofs i) ∧
        (last = lastStart fofs / config.blockSize + 1 + OfflineRenderer.maxExtra config ∨
          ¬ Sounding config fofs last)) := by
  rcases submitted.progress.advanceTo choice (r.lastStartSample + 1) with
    ⟨covered, k, middle, ran, _, coveredProgress, reached, within⟩
  rcases coveredProgress.block choice with ⟨drained, drainedConsumer, processed, _, drainedProgress⟩
  rcases drainedProgress.renderTail choice (OfflineRenderer.maxExtra drained.toOfflineConfig) with
    ⟨next, last, nextConsumer, tail, nextProgress, later, limit, sounds⟩
  have block : lastStart fofs / config.blockSize = k := by
    apply Nat.div_eq_of_lt_le
    · rcases within with rfl | before
      · rw [← submitted.progress.clock]
        exact submitted.behind
      · rw [submitted.last] at before
        exact Nat.le_of_lt_succ before
    · rw [submitted.last] at reached
      exact reached
  rw [drainedProgress.unchanged] at limit sounds
  rw [block]
  refine ⟨next, last, nextConsumer, ?_, nextProgress, later, limit, sounds⟩
  unfold OfflineRenderer.close
  rw [ran]
  change (covered.processOneBlock choice).bind _ = _
  rw [processed]
  exact tail

end Submitted

/-! ## The blocks that are rendered -/

/-- The `k`-th block is rendered: it is not behind the block of the last onset, or it
lies within the limit and a grain is active before each block of the tail up to it. -/
def Rendered (config : OfflineConfig R) (fofs : List (FofParams R)) (k : Nat) : Prop :=
  k ≤ lastStart fofs / config.blockSize ∨
    (k ≤ lastStart fofs / config.blockSize + OfflineRenderer.maxExtra config ∧
      ∀ i, lastStart fofs / config.blockSize < i → i ≤ k → Sounding config fofs i)

/-- A loop that stops at its limit or at the first silence covers these blocks. -/
theorem rendered_iff {config : OfflineConfig R} {fofs : List (FofParams R)} {last : Nat}
    (covered : lastStart fofs / config.blockSize < last)
    (limit : last ≤ lastStart fofs / config.blockSize + 1 + OfflineRenderer.maxExtra config)
    (sounds : ∀ i, lastStart fofs / config.blockSize < i → i < last → Sounding config fofs i)
    (stopped : last = lastStart fofs / config.blockSize + 1 + OfflineRenderer.maxExtra config ∨
      ¬ Sounding config fofs last) (k : Nat) :
    k < last ↔ Rendered config fofs k := by
  constructor
  · intro before
    by_cases first : k ≤ lastStart fofs / config.blockSize
    · exact Or.inl first
    · exact Or.inr ⟨by omega, fun i above upTo => sounds i above (by omega)⟩
  · rintro (first | ⟨within, busy⟩)
    · omega
    · by_contra beyond
      rcases stopped with reached | silent
      · omega
      · exact silent (busy last covered (by omega))

/-- What a renderer has done when it is closed.  It panics only at a full ring. -/
theorem renderAll_progress (choice : KeyChoice) (sampleRate : R) (panMode : PanMode)
    (blockSize : Nat) (blockSize_pos : 0 < blockSize) {fofs : List (FofParams R)}
    (sorted : fofs.Pairwise (fun x y => x.startSample ≤ y.startSample)) :
    let config : OfflineConfig R := ⟨sampleRate, blockSize, panMode.channelCount, blockSize_pos⟩
    (∃ final last consumer,
      OfflineRenderer.renderAll choice sampleRate panMode blockSize blockSize_pos fofs = .ok final ∧
      Progress config fofs last consumer final ∧
      (Servable blockSize fofs → ∀ k, k < last ↔ Rendered config fofs k)) ∨
    (OfflineRenderer.renderAll choice sampleRate panMode blockSize blockSize_pos fofs =
      .error .timeWheelFull ∧ 4096 < fofs.length) := by
  intro config
  have opened : Submitted config [] 0 (freshWheel 4096 offlineGeometry false)
      (OfflineRenderer.openFile sampleRate panMode blockSize blockSize_pos) :=
    ⟨Progress.openFile sampleRate panMode blockSize blockSize_pos, rfl, Nat.le_refl 0⟩
  unfold OfflineRenderer.renderAll
  rcases opened.addFofs choice fofs sorted with ⟨r, j, consumer, added, submitted⟩ | ⟨refused, full⟩
  · rcases submitted.close choice with
      ⟨final, last, finalConsumer, closed, progress, covered, limit, sounds⟩
    rw [added]
    refine Or.inl ⟨final, last, finalConsumer, closed, progress, fun servable => ?_⟩
    rcases sounds servable with ⟨between, stopped⟩
    exact rendered_iff covered limit between stopped
  · rw [refused]
    exact Or.inr ⟨rfl, full⟩

/-! ## When nothing is lost -/

end Engine
end Rfofs
