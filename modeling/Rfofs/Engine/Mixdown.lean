import Rfofs.Engine.Ensemble
import Rfofs.Engine.Submission

namespace Rfofs
namespace Engine

open Foundation
open Grain
open Queue

/-!
# The sound file

What an offline rendering writes, from the submitted grains to the samples of the file:
frame `n` holds, for each channel, the sum of the closed forms of the grains at `n`, each
times its gain.  A grain is heard from its onset on, or from the beginning of its fire
block if that is later.

With blocks of whole slots the fire block is never late.  Then the file is the exact mix
of what was submitted, the size of the blocks only decides how many frames are written,
and a file that was not cut off by the limit ends where the mix has become silent.
-/

variable {R : Type*}

/-! ## Frames -/

/-- The samples of a file: one frame after the other, one sample for each channel.  The length
is the product of the two numbers. -/
def soundFile (channels frames : Nat) (sample : Nat → Nat → R) : List R :=
  (List.range frames).flatMap (fun n => (List.range channels).map (sample n))

/-- A file is the file of its first frames, followed by the rest. -/
theorem soundFile_add (channels frames more : Nat) (sample : Nat → Nat → R) :
    soundFile channels (frames + more) sample = soundFile channels frames sample ++
      soundFile channels more (fun n => sample (frames + n)) := by
  unfold soundFile
  rw [List.range_add, List.flatMap_append, List.flatMap_map]

theorem soundFile_congr {channels frames : Nat} {sample other : Nat → Nat → R}
    (same : ∀ n, n < frames → ∀ ch, ch < channels → sample n ch = other n ch) :
    soundFile channels frames sample = soundFile channels frames other := by
  unfold soundFile
  refine List.flatMap_congr (fun n member => List.map_congr_left (fun ch listed => ?_))
  exact same n (List.mem_range.mp member) ch (List.mem_range.mp listed)

section Mixing

variable [Field R] [LinearOrder R] [FloorRing R] [RealOps R]

omit [LinearOrder R] [FloorRing R] [RealOps R] in
/-- A block of zeroed buffers to which a value was added everywhere, as it is written. -/
theorem interleave_mapIdx (channels blockSize : Nat) (added : Nat → Nat → R) :
    OfflineRenderer.interleave blockSize ((silence channels blockSize).mapIdx (fun ch out =>
      out.mapIdx (fun j x => if j < blockSize then x + added ch j else x))) =
        soundFile channels blockSize (fun j ch => added ch j) := by
  unfold OfflineRenderer.interleave soundFile
  refine List.flatMap_congr (fun j member => ?_)
  have inside := List.mem_range.mp member
  apply List.ext_getElem
  · simp [silence]
  · intro ch first second
    have position : j < ((List.replicate blockSize (0 : R)).mapIdx (fun j x =>
        if j < blockSize then x + added ch j else x)).length := by
      rwa [List.length_mapIdx, List.length_replicate]
    simp only [List.getElem_map, List.getElem_mapIdx, List.getElem_range, silence,
      List.getElem_replicate]
    rw [← List.getElem_eq_getD (h := position), List.getElem_mapIdx, List.getElem_replicate,
      if_pos inside, zero_add]

/-- A dead grain adds nothing.  It may therefore be mixed or left out. -/
theorem mixGrain_dead {grain : FofState R} (dead : grain.phase = .dead) (panMode : PanMode)
    (blockStart blockSize : Nat) (outputs : List (List R)) :
    mixGrain panMode blockStart blockSize outputs grain = outputs := by
  have silent : ∀ j, (List.replicate blockSize (0 : R)).getD j 0 = 0 := by
    intro j
    rw [List.getD_eq_getElem?_getD, List.getElem?_getD_replicate_default_eq]
  rw [mixGrain, FofState.fillBlock, if_pos dead, scatter_mapIdx]
  simp only [silent, zero_mul, add_zero, mapIdx_untouched]

theorem foldl_mixGrain_alive (panMode : PanMode) (blockStart blockSize : Nat)
    (grains : List (FofState R)) (outputs : List (List R)) :
    (grains.filter Alive).foldl (mixGrain panMode blockStart blockSize) outputs =
      grains.foldl (mixGrain panMode blockStart blockSize) outputs := by
  rw [List.foldl_filter]
  congr 1
  funext outputs grain
  split
  · rfl
  · rename_i dead
    exact (mixGrain_dead (by simpa [Alive] using dead) panMode blockStart blockSize outputs).symm

/-- Without kill requests a block mixes the old grains and the spawned ones.  The renderer has
no producer of kill requests, so all its blocks are of this kind. -/
theorem RfofsEngine.processBlock_outputs (choice : KeyChoice) {engine next : RfofsEngine R}
    (tracked : Tracked engine.active engine.idMap) {outputs rendered : List (List R)}
    {blockSize : Nat} (unkilled : engine.killRx.rx.items = [])
    (processed : engine.processBlock choice outputs blockSize = some (next, rendered)) :
    rendered = (engine.active.values ++ (engine.incoming blockSize).map
      (fun params => FofState.spawn params engine.sampleRate)).foldl
        (mixGrain engine.panMode engine.sampleClock blockSize) outputs ∧
      next.panMode = engine.panMode := by
  obtain ⟨frame, _, values⟩ := spawn_foldl choice
    ({ engine with
      wheels := (drainWheels engine.sampleClock blockSize engine.wheels []).1
      killRx := (engine.killRx.drainAll []).1 }) tracked (engine.incoming blockSize)
  have none : (engine.killRx.drainAll []).2 = [] := unkilled
  have mode := frame.panMode
  unfold processBlock at processed
  dsimp only at processed
  rw [none, List.foldlM_nil] at processed
  cases processed
  refine ⟨?_, mode⟩
  rw [render_mix]
  unfold incoming at mode values
  dsimp only at mode values ⊢
  rw [mode, values.foldl_eq]
  rfl

/-! ## One grain of the file -/

/-- The frame in which a submitted grain is heard first.  It is its onset, or the beginning of
its fire block when this block comes too late for the onset. -/
def onset (blockSize : Nat) (params : FofParams R) : Nat :=
  max params.startSample (fireBlock blockSize params * blockSize)

omit [Field R] [LinearOrder R] [FloorRing R] [RealOps R] in
/-- With blocks of whole slots a grain is heard from its onset on. -/
theorem onset_of_dvd {blockSize : Nat} (aligned : offlineGeometry.duration ∣ blockSize)
    (params : FofParams R) : onset blockSize params = params.startSample := by
  rw [onset, fireBlock_of_dvd aligned]
  exact max_eq_left (Nat.div_mul_le_self _ _)

/-- What a grain that begins with frame `first` adds to frame `n`, before panning.  Before its
first frame it adds nothing. -/
def heardFrom (sampleRate : R) (first : Nat) (params : FofParams R) (n : Nat) : R :=
  if first ≤ n then
    (FofState.spawn params sampleRate).closedValue
      (FofState.spawn params sampleRate).naturalEntry (n - first)
  else
    0

/-- A grain that nobody has killed, heard up to frame `n`.  Its age counts from the frame in
which it is heard first. -/
def toneAt (blockSize n : Nat) (params : FofParams R) : Tone R :=
  { (Tone.start params) with age := n - onset blockSize params, marked := false }

omit [Field R] [LinearOrder R] [FloorRing R] [RealOps R] in
theorem toneAt_grow {blockSize j : Nat} {params : FofParams R}
    (fired : fireBlock blockSize params ≤ j) :
    (toneAt blockSize (j * blockSize) params).grow (j * blockSize) blockSize =
      toneAt blockSize ((j + 1) * blockSize) params := by
  have before := Nat.mul_le_mul_right blockSize fired
  have next : (j + 1) * blockSize = j * blockSize + blockSize := Nat.succ_mul j blockSize
  have age : j * blockSize - onset blockSize params +
      (blockSize - (params.startSample - j * blockSize)) =
        (j + 1) * blockSize - onset blockSize params := by
    unfold onset
    omega
  unfold toneAt Tone.grow Tone.older
  exact congrArg (fun age => Tone.mk params age none false) age

/-- What fits later fits now.  The condition is therefore asked once, for the last frame. -/
theorem toneAt_fits {sampleRate : R} {blockSize n later : Nat} {params : FofParams R}
    (before : n ≤ later) (fits : (toneAt blockSize later params).Fits sampleRate) :
    (toneAt blockSize n params).Fits sampleRate := by
  apply Tone.Fits.of_older (k := later - onset blockSize params - (n - onset blockSize params))
  have age : n - onset blockSize params +
      (later - onset blockSize params - (n - onset blockSize params)) =
        later - onset blockSize params := by
    omega
  have same : (toneAt blockSize n params).older
      (later - onset blockSize params - (n - onset blockSize params)) =
        toneAt blockSize later params :=
    congrArg (fun age => Tone.mk params age none false) age
  rwa [same]

/-- A sample of a block is a sample of the file. -/
theorem toneAt_sample (sampleRate : R) {blockSize j s : Nat} {params : FofParams R}
    (fired : fireBlock blockSize params ≤ j) :
    (toneAt blockSize (j * blockSize) params).sample sampleRate (j * blockSize) s =
      heardFrom sampleRate (onset blockSize params) params (j * blockSize + s) := by
  have before := Nat.mul_le_mul_right blockSize fired
  unfold Tone.sample heardFrom
  change (if params.startSample - j * blockSize ≤ s then
    (FofState.spawn params sampleRate).closedValue (FofState.spawn params sampleRate).naturalEntry
      (j * blockSize - onset blockSize params + (s - (params.startSample - j * blockSize)))
    else 0) = _
  by_cases started : params.startSample - j * blockSize ≤ s
  · have age : j * blockSize - onset blockSize params + (s - (params.startSample - j * blockSize)) =
        j * blockSize + s - onset blockSize params := by
      unfold onset
      omega
    rw [if_pos started, age, if_pos (by unfold onset; omega)]
  · rw [if_neg started, if_neg (by unfold onset; omega)]

variable [IsStrictOrderedRing R]

/-- A grain after the blocks of the file up to `j`.  By induction on the blocks since its fire
block. -/
theorem grainAt_stage (laws : ExpLaws R) {sampleRate : R} {blockSize j : Nat}
    {params : FofParams R} (fired : fireBlock blockSize params ≤ j)
    (fits : (toneAt blockSize (j * blockSize) params).Fits sampleRate) :
    (toneAt blockSize (j * blockSize) params).Stage sampleRate
      (grainAt sampleRate blockSize j params) := by
  induction j, fired using Nat.le_induction with
  | base =>
      have fresh : fireBlock blockSize params * blockSize - onset blockSize params = 0 :=
        Nat.sub_eq_zero_of_le (le_max_right _ _)
      have start := Tone.Stage.start sampleRate params
      rw [grainAt_fireBlock, toneAt, fresh]
      exact ⟨start.sound, start.progress⟩
  | succ j fired ih =>
      have now := ih (toneAt_fits (Nat.mul_le_mul_right _ (Nat.le_succ j)) fits)
      rw [grainAt_succ sampleRate fired, ← toneAt_grow fired]
      rw [← toneAt_grow fired] at fits
      exact (now.fill laws fits).1

end Mixing

/-! ## The file -/

section Files

variable [Field R] [LinearOrder R] [FloorRing R] [RealOps R]

/-- The gain of a grain on a channel.  It does not depend on the frame. -/
def gainOf (panMode : PanMode) (params : FofParams R) (ch : Nat) : R :=
  (Tone.start params).gain panMode ch

/-- The sum of some grains in one frame, on one channel.  A request that was submitted twice
is heard twice. -/
def mixOf (sampleRate : R) (panMode : PanMode) (first : FofParams R → Nat)
    (fofs : List (FofParams R)) (n ch : Nat) : R :=
  (fofs.map (fun params => heardFrom sampleRate (first params) params n *
    gainOf panMode params ch)).sum

/-- The exact mix of the submitted grains.  Every grain begins with its onset, and nothing is
said about blocks or slots. -/
def mixdown (sampleRate : R) (panMode : PanMode) (fofs : List (FofParams R)) : Nat → Nat → R :=
  mixOf sampleRate panMode FofParams.startSample fofs

/-- Grains that begin later add nothing yet.  A block is therefore compared with all grains of
the file. -/
theorem mixOf_append_silent (sampleRate : R) (panMode : PanMode) (first : FofParams R → Nat)
    (fofs : List (FofParams R)) {others : List (FofParams R)} {n : Nat}
    (later : ∀ params ∈ others, n < first params) (ch : Nat) :
    mixOf sampleRate panMode first (fofs ++ others) n ch =
      mixOf sampleRate panMode first fofs n ch := by
  have silent : (others.map (fun params => heardFrom sampleRate (first params) params n *
      gainOf panMode params ch)).sum = 0 := by
    apply List.sum_eq_zero
    intro x member
    rcases List.mem_map.mp member with ⟨params, listed, rfl⟩
    rw [heardFrom, if_neg (Nat.not_le_of_lt (later params listed)), zero_mul]
  rw [mixOf, List.map_append, List.sum_append, silent, add_zero, ← mixOf]

theorem mixOf_perm (sampleRate : R) (panMode : PanMode) (first : FofParams R → Nat)
    {fofs others : List (FofParams R)} (same : fofs.Perm others) (n ch : Nat) :
    mixOf sampleRate panMode first fofs n ch = mixOf sampleRate panMode first others n ch :=
  (same.map _).sum_eq

/-- What has been written is the mix of what has been fired, provided that the fade-outs
that have begun fit. -/
def Recorded (panMode : PanMode) (config : OfflineConfig R) (r : OfflineRenderer R) : Prop :=
  r.session.engine.panMode = panMode ∧
  ((∀ params ∈ r.session.ledger.fired,
      (toneAt config.blockSize r.clock params).Fits config.sampleRate) →
    r.written = soundFile config.nChannels r.clock
      (mixOf config.sampleRate panMode (onset config.blockSize) r.session.ledger.fired))

variable {config : OfflineConfig R} {fofs : List (FofParams R)} {j : Nat}
  {consumer : TimeWheelConsumer R} {r : OfflineRenderer R} {panMode : PanMode}

variable [IsStrictOrderedRing R]

/-- The voices of grains that are rendered on their own.  Each sings the tone of its age. -/
theorem choral_grainAt (laws : ExpLaws R) (sampleRate : R) {blockSize : Nat}
    {fired : List (FofParams R)} (before : ∀ params ∈ fired, fireBlock blockSize params ≤ j) :
    Choral sampleRate (fired.map (fun params => ⟨grainAt sampleRate blockSize j params, false⟩))
      (fired.map (toneAt blockSize (j * blockSize))) := by
  induction fired with
  | nil => exact List.Forall₂.nil
  | cons params fired ih =>
      refine List.Forall₂.cons ⟨rfl, ?_, fun fits => ?_⟩
        (ih (fun later member => before later (List.mem_cons_of_mem _ member)))
      · have constants : ∀ (list : List Nat) (grain : FofState R),
            (list.foldl (ageBlock blockSize) grain).params = grain.params := by
          intro list
          induction list with
          | nil => exact fun _ => rfl
          | cons k list ih =>
              intro grain
              rw [List.foldl_cons, ih]
              exact congrArg FofConstants.params (grain.fillBlock_constants _ _)
        exact constants _ _
      · exact grainAt_stage laws (before params List.mem_cons_self) fits

/-- The block that is rendered next.  Its outputs are the sum over the grains fired before and
in this block. -/
theorem Progress.block_outputs (laws : ExpLaws R) (progress : Progress config fofs j consumer r)
    {choice : KeyChoice} {engine : RfofsEngine R} {rendered : List (List R)}
    (processed : r.session.engine.processBlock choice (silence config.nChannels config.blockSize)
      config.blockSize = some (engine, rendered))
    (fits : ∀ params ∈ r.session.ledger.fired ++ r.session.engine.incoming config.blockSize,
      (toneAt config.blockSize ((j + 1) * config.blockSize) params).Fits config.sampleRate) :
    rendered = (silence config.nChannels config.blockSize).mapIdx (fun ch out =>
      out.mapIdx (fun s x => if s < config.blockSize then x +
        mixOf config.sampleRate r.session.engine.panMode (onset config.blockSize)
          (r.session.ledger.fired ++ r.session.engine.incoming config.blockSize)
          (j * config.blockSize + s) ch else x)) := by
  have clock : r.session.engine.sampleClock = j * config.blockSize := progress.clock
  have early : ∀ params ∈ r.session.ledger.fired ++ r.session.engine.incoming config.blockSize,
      fireBlock config.blockSize params ≤ j := by
    intro params member
    rcases List.mem_append.mp member with old | new
    · exact le_of_lt (progress.fired_before params old)
    · exact le_of_eq (progress.incoming_now params new)
  have fresh : (r.session.engine.incoming config.blockSize).map
      (fun params => FofState.spawn params config.sampleRate) =
        (r.session.engine.incoming config.blockSize).map
          (grainAt config.sampleRate config.blockSize j) := by
    apply List.map_congr_left
    intro params member
    rw [← progress.incoming_now params member, grainAt_fireBlock]
  have choral := choral_grainAt laws config.sampleRate early
  have bounded : ∀ tone ∈ (r.session.ledger.fired ++
      r.session.engine.incoming config.blockSize).map
        (toneAt config.blockSize (j * config.blockSize)),
      (tone.grow (j * config.blockSize) config.blockSize).Fits config.sampleRate := by
    intro tone member
    rcases List.mem_map.mp member with ⟨params, listed, rfl⟩
    rw [toneAt_grow (early params listed)]
    exact fits params listed
  have mixed := choral.mix laws r.session.engine.panMode bounded
    (silence config.nChannels config.blockSize)
  have voices : (List.map Voice.grain ((r.session.ledger.fired ++
      r.session.engine.incoming config.blockSize).map (fun params =>
        ⟨grainAt config.sampleRate config.blockSize j params, false⟩))) =
      (r.session.ledger.fired.map (grainAt config.sampleRate config.blockSize j)) ++
        (r.session.engine.incoming config.blockSize).map
          (grainAt config.sampleRate config.blockSize j) := by
    rw [List.map_map, ← List.map_append]
    rfl
  rw [(RfofsEngine.processBlock_outputs choice progress.live.tracked progress.unkilled
    processed).1, progress.rate, clock, fresh, List.foldl_append,
    progress.active.foldl_eq, foldl_mixGrain_alive, ← List.foldl_append, ← voices, mixed]
  congr 1
  funext ch out
  congr 1
  funext s x
  split
  · rw [mixOf, List.map_map]
    congr 2
    apply List.map_congr_left
    intro params member
    exact congrArg (· * _) (toneAt_sample config.sampleRate (early params member))
  · rfl

/-- One block of the file.  What was written before stays, and the new frames hold the mix. -/
theorem Progress.block_recorded (laws : ExpLaws R) (progress : Progress config fofs j consumer r)
    (recorded : Recorded panMode config r) {choice : KeyChoice} {next : OfflineRenderer R}
    (rendered : r.processOneBlock choice = .ok next) : Recorded panMode config next := by
  rcases progress.unchanged with rfl
  obtain ⟨engine, outputs, processed, blocked, done, _, _⟩ := progress.live.block choice
    (silence r.nChannels r.blockSize) r.blockSize
  have clock : r.clock = j * r.blockSize := progress.clock
  have same : next = { r with
      session := r.session.recordBlock engine r.blockSize
      written := r.written ++ OfflineRenderer.interleave r.blockSize outputs } := by
    unfold silence at blocked
    simp only [OfflineRenderer.processOneBlock, blocked] at rendered
    exact (Except.ok.inj rendered).symm
  have mode := (RfofsEngine.processBlock_outputs choice progress.live.tracked progress.unkilled
    processed).2
  have later : next.clock = (j + 1) * r.blockSize := by
    rw [(OfflineRenderer.processOneBlock_clock rendered).1, clock, ← Nat.succ_mul]
  subst same
  refine ⟨mode.trans recorded.1, fun fits => ?_⟩
  rw [later] at fits ⊢
  change ∀ params ∈ r.session.ledger.fired ++ r.session.engine.incoming r.blockSize, _ at fits
  have outputs_eq := progress.block_outputs laws processed fits
  have before := recorded.2 (fun params member => by
    rw [clock]
    exact toneAt_fits (Nat.mul_le_mul_right _ (Nat.le_succ j))
      (fits params (List.mem_append_left _ member)))
  change r.written ++ OfflineRenderer.interleave r.blockSize outputs =
    soundFile r.nChannels ((j + 1) * r.blockSize) (mixOf r.sampleRate panMode (onset r.blockSize)
      (r.session.ledger.fired ++ r.session.engine.incoming r.blockSize))
  rw [outputs_eq, interleave_mapIdx, before, clock, recorded.1, Nat.succ_mul, soundFile_add]
  congr 1
  refine soundFile_congr (fun n inside ch _ => ?_)
  rw [mixOf_append_silent]
  intro params member
  have now := progress.incoming_now params member
  apply lt_of_lt_of_le inside
  rw [← now]
  exact le_max_right _ _

/-! ## The loops -/

/-- What every block of a loop keeps. -/
theorem block_keeps (laws : ExpLaws R) (choice : KeyChoice) (r : OfflineRenderer R)
    (kept : Recorded panMode config r ∧ ∃ j consumer, Progress config fofs j consumer r) :
    ∃ next, r.processOneBlock choice = .ok next ∧
      Recorded panMode config next ∧ ∃ j consumer, Progress config fofs j consumer next := by
  rcases kept with ⟨recorded, j, consumer, progress⟩
  rcases progress.block choice with ⟨next, nextConsumer, processed, _, nextProgress⟩
  exact ⟨next, processed, progress.block_recorded laws recorded processed, j + 1, nextConsumer,
    nextProgress⟩

/-- Rendering blocks up to a bound. -/
theorem Progress.advanceTo_recorded (laws : ExpLaws R) (progress : Progress config fofs j consumer r)
    (recorded : Recorded panMode config r) {choice : KeyChoice} {bound : Nat}
    {next : OfflineRenderer R} (ran : r.advanceTo choice bound = .ok next) :
    Recorded panMode config next := by
  rcases OfflineRenderer.advanceTo_invariant (block_keeps laws choice) bound ⟨recorded, j, consumer, progress⟩ with
    ⟨other, same, ⟨kept, _⟩, _⟩
  rw [ran] at same
  exact Except.ok.inj same ▸ kept

omit [IsStrictOrderedRing R] in
/-- A push neither renders nor fires. -/
theorem Recorded.push (recorded : Recorded panMode config r) {params : FofParams R}
    {session : Session R} (pushed : r.session.push params = some session) :
    Recorded panMode config { r with session := session } := by
  rcases Option.map_eq_some_iff.mp pushed with ⟨engine, submitted, rfl⟩
  rcases RfofsEngine.submit_eq_some.mp submitted with ⟨wheel, rx, _, _, rfl⟩
  exact recorded

theorem Submitted.addFof_recorded (laws : ExpLaws R) (submitted : Submitted config fofs j consumer r)
    (recorded : Recorded panMode config r) {choice : KeyChoice} {params : FofParams R}
    (ordered : lastStart fofs ≤ params.startSample) {next : OfflineRenderer R}
    (added : r.addFof choice params = .ok next) : Recorded panMode config next := by
  have monotonic : r.lastStartSample ≤ params.startSample := by
    rw [submitted.last]
    exact ordered
  unfold OfflineRenderer.addFof at added
  rw [if_pos monotonic] at added
  rcases submitted.progress.push (submitted.behind.trans ordered) with
    ⟨session, middle, pushed, progress⟩ | ⟨refused, _⟩
  · rw [pushed] at added
    rcases progress.advanceTo choice params.startSample with ⟨reached, _, _, ran, _⟩
    simp only at added
    rw [ran] at added
    have kept := progress.advanceTo_recorded laws (recorded.push pushed) ran
    cases added
    exact kept
  · rw [refused] at added
    cases added

theorem Submitted.addFofs_recorded (laws : ExpLaws R)
    (submitted : Submitted config fofs j consumer r) (recorded : Recorded panMode config r)
    {choice : KeyChoice} {rest : List (FofParams R)}
    (sorted : (fofs ++ rest).Pairwise (fun x y => x.startSample ≤ y.startSample))
    {next : OfflineRenderer R} (added : rest.foldlM (OfflineRenderer.addFof choice) r = .ok next) :
    Recorded panMode config next := by
  induction rest generalizing fofs j consumer r with
  | nil =>
      cases added
      exact recorded
  | cons params rest ih =>
      have ordered : lastStart fofs ≤ params.startSample :=
        lastStart_le (fun earlier member =>
          (List.pairwise_append.mp sorted).2.2 earlier member params List.mem_cons_self)
      rw [List.foldlM_cons] at added
      rcases submitted.addFof choice ordered with ⟨middle, last, middleConsumer, first, held⟩ |
        ⟨refused, _⟩
      · rw [first] at added
        refine ih held (submitted.addFof_recorded laws recorded ordered first) ?_ added
        rwa [List.append_assoc]
      · rw [refused] at added
        cases added

theorem Submitted.close_recorded (laws : ExpLaws R) (submitted : Submitted config fofs j consumer r)
    (recorded : Recorded panMode config r) {choice : KeyChoice} {next : OfflineRenderer R}
    (closed : r.close choice = .ok next) : Recorded panMode config next := by
  unfold OfflineRenderer.close at closed
  rcases submitted.progress.advanceTo choice (r.lastStartSample + 1) with
    ⟨covered, k, middle, ran, _, progress, _⟩
  have held := submitted.progress.advanceTo_recorded laws recorded ran
  rcases block_keeps laws choice covered ⟨held, k, middle, progress⟩ with ⟨drained, processed, more⟩
  rcases OfflineRenderer.renderTail_invariant (block_keeps laws choice)
    (OfflineRenderer.maxExtra drained.toOfflineConfig) more with ⟨final, tail, kept⟩
  rw [ran] at closed
  change (covered.processOneBlock choice).bind _ = _ at closed
  rw [processed] at closed
  change drained.renderTail choice _ = _ at closed
  rw [tail] at closed
  exact Except.ok.inj closed ▸ kept.1

/-- What is written when a renderer is closed.  The submissions are in order, and none is
refused. -/
theorem renderAll_recorded (laws : ExpLaws R) (choice : KeyChoice) (sampleRate : R)
    (panMode : PanMode) (blockSize : Nat) (blockSize_pos : 0 < blockSize)
    {fofs : List (FofParams R)}
    (sorted : fofs.Pairwise (fun x y => x.startSample ≤ y.startSample))
    {final : OfflineRenderer R}
    (rendered : OfflineRenderer.renderAll choice sampleRate panMode blockSize blockSize_pos fofs =
      .ok final) :
    Recorded panMode ⟨sampleRate, blockSize, panMode.channelCount, blockSize_pos⟩ final := by
  have opened : Submitted ⟨sampleRate, blockSize, panMode.channelCount, blockSize_pos⟩ [] 0
      (freshWheel 4096 offlineGeometry false)
      (OfflineRenderer.openFile sampleRate panMode blockSize blockSize_pos) :=
    ⟨Progress.openFile sampleRate panMode blockSize blockSize_pos, rfl, Nat.le_refl 0⟩
  have blank : Recorded panMode ⟨sampleRate, blockSize, panMode.channelCount, blockSize_pos⟩
      (OfflineRenderer.openFile sampleRate panMode blockSize blockSize_pos) := ⟨rfl, fun _ => rfl⟩
  unfold OfflineRenderer.renderAll at rendered
  rcases opened.addFofs choice fofs sorted with ⟨r, j, consumer, added, submitted⟩ | ⟨refused, _⟩
  · rw [added] at rendered
    exact submitted.close_recorded laws (opened.addFofs_recorded laws blank sorted added) rendered
  · rw [refused] at rendered
    cases rendered

/-! ## The mix of what was submitted -/

/-- The number of frames after which a renderer stops at the latest: the block of the last
onset, and thirty seconds more. -/
def frameLimit (config : OfflineConfig R) (fofs : List (FofParams R)) : Nat :=
  (lastStart fofs / config.blockSize + 1 + OfflineRenderer.maxExtra config) * config.blockSize

omit [IsStrictOrderedRing R] in
theorem Rendered.le_limit {k : Nat} (rendered : Rendered config fofs k) :
    k ≤ lastStart fofs / config.blockSize + OfflineRenderer.maxExtra config := by
  rcases rendered with first | ⟨within, _⟩
  · exact first.trans (Nat.le_add_right _ _)
  · exact within

omit [IsStrictOrderedRing R] in
/-- A file that is not refused is rendered. -/
theorem renderAll_ok (choice : KeyChoice) (sampleRate : R) (panMode : PanMode) (blockSize : Nat)
    (blockSize_pos : 0 < blockSize) {fofs : List (FofParams R)}
    (sorted : fofs.Pairwise (fun x y => x.startSample ≤ y.startSample))
    (unrefused : OfflineRenderer.renderAll choice sampleRate panMode blockSize blockSize_pos fofs ≠
      .error .timeWheelFull) :
    ∃ final, OfflineRenderer.renderAll choice sampleRate panMode blockSize blockSize_pos fofs =
      .ok final := by
  rcases renderAll_progress choice sampleRate panMode blockSize blockSize_pos sorted with
    ⟨final, _, _, rendered, _⟩ | ⟨refused, _⟩
  · exact ⟨final, rendered⟩
  · exact absurd refused unrefused

/-- What a rendered file holds.  Every frame up to the last block is the sum of the submitted
grains, each from the frame in which it is heard first. -/
theorem renderAll_written (laws : ExpLaws R) (choice : KeyChoice) (sampleRate : R)
    (panMode : PanMode) (blockSize : Nat) (blockSize_pos : 0 < blockSize)
    {fofs : List (FofParams R)} (servable : Servable blockSize fofs)
    (fits : ∀ params ∈ fofs, (toneAt blockSize (frameLimit
      ⟨sampleRate, blockSize, panMode.channelCount, blockSize_pos⟩ fofs) params).Fits sampleRate)
    {final : OfflineRenderer R}
    (rendered : OfflineRenderer.renderAll choice sampleRate panMode blockSize blockSize_pos fofs =
      .ok final) :
    ∃ last,
      (∀ k, k < last ↔
        Rendered ⟨sampleRate, blockSize, panMode.channelCount, blockSize_pos⟩ fofs k) ∧
      final.written = soundFile panMode.channelCount (last * blockSize)
        (mixOf sampleRate panMode (onset blockSize) fofs) := by
  rcases renderAll_progress choice sampleRate panMode blockSize blockSize_pos servable.sorted with
    ⟨same, last, consumer, ended, progress, blocks⟩ | ⟨refused, _⟩
  · rw [rendered] at ended
    cases ended
    have covered := blocks servable
    have within : last * blockSize ≤ frameLimit
        ⟨sampleRate, blockSize, panMode.channelCount, blockSize_pos⟩ fofs := by
      apply Nat.mul_le_mul_right
      cases last with
      | zero => exact Nat.zero_le _
      | succ before =>
          have limit := ((covered before).mp (Nat.lt_succ_self before)).le_limit
          omega
    have fired := progress.fired_perm servable
    have recorded := renderAll_recorded laws choice sampleRate panMode blockSize blockSize_pos
      servable.sorted rendered
    refine ⟨last, covered, ?_⟩
    rw [recorded.2 (fun params member => ?_), progress.clock]
    · refine soundFile_congr (fun n inside ch _ => ?_)
      have split := List.filter_append_perm
        (fun params => decide (fireBlock blockSize params < last)) fofs
      rw [mixOf_perm _ _ _ fired, ← mixOf_perm _ _ _ split, mixOf_append_silent]
      intro params member
      have late : ¬ fireBlock blockSize params < last := by
        simpa using (List.mem_filter.mp member).2
      calc n < last * blockSize := inside
        _ ≤ fireBlock blockSize params * blockSize :=
          Nat.mul_le_mul_right _ (Nat.le_of_not_lt late)
        _ ≤ onset blockSize params := le_max_right _ _
    · rw [progress.clock]
      exact toneAt_fits within (fits params (List.mem_of_mem_filter (fired.mem_iff.mp member)))
  · rw [rendered] at refused
    cases refused

/-- A renderer that is closed has written the mix of what was submitted, from the first
frame to the last one that it rendered.  The arithmetic is exact, and the sine that of the
`std-sin` build.  The requests come in order, no more than a slot holds for each slot and none
from beyond the horizon of its block (`Servable`); their fade-outs fit the counters, and the
ingress ring refuses none of them. -/
theorem renderAll_mixes (laws : ExpLaws R) (choice : KeyChoice) (sampleRate : R)
    (panMode : PanMode) (blockSize : Nat) (blockSize_pos : 0 < blockSize)
    {fofs : List (FofParams R)} (servable : Servable blockSize fofs)
    (fits : ∀ params ∈ fofs, (toneAt blockSize (frameLimit
      ⟨sampleRate, blockSize, panMode.channelCount, blockSize_pos⟩ fofs) params).Fits sampleRate)
    (unrefused : OfflineRenderer.renderAll choice sampleRate panMode blockSize blockSize_pos fofs ≠
      .error .timeWheelFull) :
    ∃ final last,
      OfflineRenderer.renderAll choice sampleRate panMode blockSize blockSize_pos fofs = .ok final ∧
      (∀ k, k < last ↔
        Rendered ⟨sampleRate, blockSize, panMode.channelCount, blockSize_pos⟩ fofs k) ∧
      final.written = soundFile panMode.channelCount (last * blockSize)
        (mixOf sampleRate panMode (onset blockSize) fofs) := by
  rcases renderAll_ok choice sampleRate panMode blockSize blockSize_pos servable.sorted
    unrefused with ⟨final, rendered⟩
  rcases renderAll_written laws choice sampleRate panMode blockSize blockSize_pos servable fits
    rendered with ⟨last, blocks, written⟩
  exact ⟨final, last, rendered, blocks, written⟩

omit [IsStrictOrderedRing R] in
/-- A renderer stops at its limit, or when no grain is active. -/
theorem stopped {last : Nat} (blocks : ∀ k, k < last ↔ Rendered config fofs k) :
    lastStart fofs < last * config.blockSize ∧
      (last * config.blockSize = frameLimit config fofs ∨ ¬ Sounding config fofs last) := by
  have covered : lastStart fofs / config.blockSize < last := (blocks _).mpr (Or.inl (Nat.le_refl _))
  refine ⟨(Nat.div_lt_iff_lt_mul config.blockSize_pos).mp covered, ?_⟩
  by_cases reached : last = lastStart fofs / config.blockSize + 1 + OfflineRenderer.maxExtra config
  · exact Or.inl (congrArg (· * config.blockSize) reached)
  · right
    intro sounds
    have inside : last ≤ lastStart fofs / config.blockSize + OfflineRenderer.maxExtra config := by
      have limit := ((blocks (last - 1)).mp (Nat.sub_one_lt_of_lt covered)).le_limit
      omega
    apply Nat.lt_irrefl last
    refine (blocks last).mpr (Or.inr ⟨inside, fun i above upTo => ?_⟩)
    rcases Nat.eq_or_lt_of_le upTo with rfl | before
    · exact sounds
    · rcases (blocks i).mp before with first | ⟨_, busy⟩
      · omega
      · exact busy i above (Nat.le_refl i)

/-- A grain that is dead after `j` blocks is silent from there on.  Frames that are not
written any more would have been silent. -/
theorem heardFrom_silent (laws : ExpLaws R) {sampleRate : R} {blockSize : Nat}
    {params : FofParams R} (fired : fireBlock blockSize params ≤ j)
    (fits : (toneAt blockSize (j * blockSize) params).Fits sampleRate)
    (dead : ¬ Alive (grainAt sampleRate blockSize j params) = true) {n : Nat}
    (later : j * blockSize ≤ n) :
    heardFrom sampleRate (onset blockSize params) params n = 0 := by
  have phase : (grainAt sampleRate blockSize j params).phase = .dead := by
    simpa [Alive] using dead
  have ended := of_decide_eq_true ((grainAt_stage laws fired fits).dead_iff.mp phase)
  change (FofState.spawn params sampleRate).naturalEntry.fadeoutEnd <
    j * blockSize - onset blockSize params at ended
  unfold heardFrom
  split
  · rw [FofConstants.closedValue, FofConstants.closedEnv_silent (by omega), mul_zero, zero_mul]
  · rfl

/-- What a file with blocks of whole slots, up to the horizon, holds.  Every grain begins with
its onset here, so the block size does not occur in the samples. -/
theorem exact_written (laws : ExpLaws R) (choice : KeyChoice) (sampleRate : R)
    (panMode : PanMode) (blockSize : Nat) (blockSize_pos : 0 < blockSize)
    (aligned : offlineGeometry.duration ∣ blockSize)
    (short : blockSize ≤ offlineGeometry.slots * offlineGeometry.duration)
    {fofs : List (FofParams R)}
    (sorted : fofs.Pairwise (fun x y => x.startSample ≤ y.startSample))
    (sparse : ∀ k, (keyClass (slotNumber offlineGeometry) k fofs).length ≤ 64)
    (fits : ∀ params ∈ fofs, (toneAt blockSize (frameLimit
      ⟨sampleRate, blockSize, panMode.channelCount, blockSize_pos⟩ fofs) params).Fits sampleRate)
    {final : OfflineRenderer R}
    (rendered : OfflineRenderer.renderAll choice sampleRate panMode blockSize blockSize_pos fofs =
      .ok final) :
    ∃ frames,
      final.written =
        soundFile panMode.channelCount frames (mixdown sampleRate panMode fofs) ∧
      lastStart fofs < frames ∧
      (frames = frameLimit ⟨sampleRate, blockSize, panMode.channelCount, blockSize_pos⟩ fofs ∨
        ∀ n ch, frames ≤ n → mixdown sampleRate panMode fofs n ch = 0) := by
  have servable : Servable blockSize fofs :=
    ⟨sorted, sparse, fun params _ => admissible_of_le_horizon blockSize_pos short params⟩
  have exact_onset : ∀ params : FofParams R, onset blockSize params = params.startSample :=
    onset_of_dvd aligned
  rcases renderAll_written laws choice sampleRate panMode blockSize blockSize_pos servable fits
    rendered with ⟨last, blocks, written⟩
  rcases stopped blocks with ⟨covered, ended⟩
  refine ⟨last * blockSize, ?_, covered, ?_⟩
  · rw [written]
    unfold mixdown
    rw [← funext exact_onset]
  · refine ended.imp id (fun silent n ch later => List.sum_eq_zero (fun x member => ?_))
    rcases List.mem_map.mp member with ⟨params, listed, rfl⟩
    have fired : fireBlock blockSize params < last := by
      apply (blocks _).mpr (Or.inl _)
      change fireBlock blockSize params ≤ lastStart fofs / blockSize
      rw [fireBlock_of_dvd aligned]
      exact Nat.div_le_div_right (le_lastStart sorted params listed)
    have within : last * blockSize ≤ frameLimit
        ⟨sampleRate, blockSize, panMode.channelCount, blockSize_pos⟩ fofs := by
      apply Nat.mul_le_mul_right
      have limit := ((blocks (last - 1)).mp (by omega)).le_limit
      change last ≤ lastStart fofs / blockSize + 1 + _
      change last - 1 ≤ lastStart fofs / blockSize + _ at limit
      omega
    have quiet := heardFrom_silent laws fired.le (toneAt_fits within (fits params listed))
      (fun alive => silent ⟨params, listed, fired, alive⟩) later
    rw [exact_onset] at quiet
    rw [quiet, zero_mul]

/-- With blocks of whole slots, up to the horizon, the file is the exact mix of what was
submitted.  It reaches beyond the last onset, and where it ends the mix is silent, unless
the limit has been reached.  This is so in exact arithmetic with the sine of the `std-sin`
build, of requests in order, at most sixty-four for each slot, whose fade-outs fit the
counters and of which the ingress ring refuses none. -/
theorem renderAll_exact (laws : ExpLaws R) (choice : KeyChoice) (sampleRate : R)
    (panMode : PanMode) (blockSize : Nat) (blockSize_pos : 0 < blockSize)
    (aligned : offlineGeometry.duration ∣ blockSize)
    (short : blockSize ≤ offlineGeometry.slots * offlineGeometry.duration)
    {fofs : List (FofParams R)}
    (sorted : fofs.Pairwise (fun x y => x.startSample ≤ y.startSample))
    (sparse : ∀ k, (keyClass (slotNumber offlineGeometry) k fofs).length ≤ 64)
    (fits : ∀ params ∈ fofs, (toneAt blockSize (frameLimit
      ⟨sampleRate, blockSize, panMode.channelCount, blockSize_pos⟩ fofs) params).Fits sampleRate)
    (unrefused : OfflineRenderer.renderAll choice sampleRate panMode blockSize blockSize_pos fofs ≠
      .error .timeWheelFull) :
    ∃ final frames,
      OfflineRenderer.renderAll choice sampleRate panMode blockSize blockSize_pos fofs = .ok final ∧
      final.written =
        soundFile panMode.channelCount frames (mixdown sampleRate panMode fofs) ∧
      lastStart fofs < frames ∧
      (frames = frameLimit ⟨sampleRate, blockSize, panMode.channelCount, blockSize_pos⟩ fofs ∨
        ∀ n ch, frames ≤ n → mixdown sampleRate panMode fofs n ch = 0) := by
  rcases renderAll_ok choice sampleRate panMode blockSize blockSize_pos sorted unrefused with
    ⟨final, rendered⟩
  rcases exact_written laws choice sampleRate panMode blockSize blockSize_pos aligned short sorted
    sparse fits rendered with ⟨frames, holds⟩
  exact ⟨final, frames, rendered, holds⟩

/-- The size of the blocks is inaudible: of two files of the same submission, with blocks
of whole slots up to the horizon, one is the beginning of the other.  The conditions on the
submission and on the arithmetic are those of `renderAll_exact`, for both sizes. -/
theorem block_size_inaudible (laws : ExpLaws R) (sampleRate : R) (panMode : PanMode)
    (choices : Side → KeyChoice) (blockSize : Side → Nat)
    (blockSize_pos : ∀ side, 0 < blockSize side)
    (aligned : ∀ side, offlineGeometry.duration ∣ blockSize side)
    (short : ∀ side, blockSize side ≤ offlineGeometry.slots * offlineGeometry.duration)
    {fofs : List (FofParams R)}
    (sorted : fofs.Pairwise (fun x y => x.startSample ≤ y.startSample))
    (sparse : ∀ k, (keyClass (slotNumber offlineGeometry) k fofs).length ≤ 64)
    (fits : ∀ side, ∀ params ∈ fofs, (toneAt (blockSize side) (frameLimit ⟨sampleRate,
      blockSize side, panMode.channelCount, blockSize_pos side⟩ fofs) params).Fits sampleRate)
    (unrefused : ∀ side, OfflineRenderer.renderAll (choices side) sampleRate panMode
      (blockSize side) (blockSize_pos side) fofs ≠ .error .timeWheelFull) :
    ∃ finals : Side → OfflineRenderer R,
      (∀ side, OfflineRenderer.renderAll (choices side) sampleRate panMode (blockSize side)
        (blockSize_pos side) fofs = .ok (finals side)) ∧
      ((finals .left).written <+: (finals .right).written ∨
        (finals .right).written <+: (finals .left).written) := by
  choose finals rendered using fun side => renderAll_ok (choices side) sampleRate panMode
    (blockSize side) (blockSize_pos side) sorted (unrefused side)
  choose frames written _ _ using fun side => exact_written laws (choices side) sampleRate panMode
    (blockSize side) (blockSize_pos side) (aligned side) (short side) sorted sparse (fits side)
    (rendered side)
  have longer : ∀ first second, frames first ≤ frames second →
      (finals first).written <+: (finals second).written := by
    intro first second shorter
    rw [written first, written second, ← Nat.add_sub_cancel' shorter, soundFile_add]
    exact List.prefix_append _ _
  refine ⟨finals, rendered, ?_⟩
  rcases Nat.le_total (frames .left) (frames .right) with shorter | shorter
  · exact Or.inl (longer _ _ shorter)
  · exact Or.inr (longer _ _ shorter)

end Files

/-! ## Two grains at once -/

/-- The second grain begins while the first is heard, and neither has a decay. -/
def plainPair : List (FofParams ℝ) := [plainGrain 1 5, plainGrain 2 7]

/-- Grains without a decay are still far from their fade-outs at the limit. -/
theorem plainPair_fits (blockSize : Nat) {frames : Nat} (within : frames ≤ u32Max) :
    ∀ params ∈ plainPair, (toneAt blockSize frames params).Fits 1 := by
  have endless : ∀ id start, (toneAt blockSize frames (plainGrain id start)).Fits 1 := by
    rintro id start (killed | past)
    · cases killed
    · have late : u32Max ≤
          ((toneAt blockSize frames (plainGrain id start)).constants 1).decayEnd := by
        simp [Tone.constants, FofState.spawn, toneAt, Tone.start, plainGrain]
      change ((toneAt blockSize frames (plainGrain id start)).constants 1).decayEnd <
        frames - _ at past
      omega
  intro params member
  rcases List.mem_pair.mp member with rfl | rfl
  · exact endless 1 5
  · exact endless 2 7

theorem plainPair_limit {blockSize : Nat} (blockSize_pos : 0 < blockSize) (long : 30 < blockSize) :
    frameLimit ⟨(1 : ℝ), blockSize, 1, blockSize_pos⟩ plainPair = blockSize := by
  have rate : asUsize (1 : ℝ) = 1 := by simp [asUsize]
  have extra : OfflineRenderer.maxExtra ⟨(1 : ℝ), blockSize, 1, blockSize_pos⟩ = 0 := by
    rw [OfflineRenderer.maxExtra, rate]
    exact Nat.div_eq_of_lt long
  have first : lastStart plainPair / blockSize = 0 :=
    Nat.div_eq_of_lt (lt_trans (by decide : 7 < 30) long)
  rw [frameLimit, extra, first, Nat.zero_add, Nat.add_zero, Nat.one_mul]

theorem plainPair_sorted :
    plainPair.Pairwise (fun x y => x.startSample ≤ y.startSample) :=
  List.pairwise_pair.mpr (by decide : 5 ≤ 7)

theorem plainPair_unrefused (choice : KeyChoice) {blockSize : Nat} (blockSize_pos : 0 < blockSize) :
    OfflineRenderer.renderAll choice (1 : ℝ) .mono blockSize blockSize_pos plainPair ≠
      .error .timeWheelFull := by
  rcases renderAll_progress choice (1 : ℝ) .mono blockSize blockSize_pos plainPair_sorted with
    ⟨final, _, _, rendered, _⟩ | ⟨_, full⟩
  · rw [rendered]
    exact nofun
  · exact absurd full (by decide)

theorem plainPair_sparse (k : Nat) :
    (keyClass (slotNumber offlineGeometry) k plainPair).length ≤ 64 :=
  (List.length_filter_le _ _).trans (by decide)

/-- A block of three hundred samples fires both grains in the block of their onsets. -/
theorem renderAll_mixes_plain :
    ∃ final last, OfflineRenderer.renderAll KeyChoice.next (1 : ℝ) .mono 300 (by decide)
        plainPair = .ok final ∧
      (∀ k, k < last ↔ Rendered ⟨(1 : ℝ), 300, 1, by decide⟩ plainPair k) ∧
      final.written = soundFile 1 (last * 300) (mixOf 1 .mono (onset 300) plainPair) := by
  have servable : Servable 300 plainPair :=
    ⟨plainPair_sorted, plainPair_sparse,
      fun params _ => admissible_of_le_horizon (by decide) (by decide) params⟩
  exact renderAll_mixes realLaws KeyChoice.next 1 .mono 300 (by decide) servable
    (plainPair_fits 300 (le_of_eq_of_le (plainPair_limit _ (by decide)) (by decide)))
    (plainPair_unrefused _ _)

theorem renderAll_exact_plain :
    ∃ final frames, OfflineRenderer.renderAll KeyChoice.next (1 : ℝ) .mono 256 (by decide)
        plainPair = .ok final ∧
      final.written = soundFile 1 frames (mixdown 1 .mono plainPair) ∧ 7 < frames := by
  obtain ⟨final, frames, rendered, written, covered, _⟩ := renderAll_exact realLaws KeyChoice.next 1
    .mono 256 (by decide) (Dvd.intro 1 rfl) (by decide) plainPair_sorted plainPair_sparse
    (plainPair_fits 256 (le_of_eq_of_le (plainPair_limit _ (by decide)) (by decide)))
    (plainPair_unrefused _ _)
  exact ⟨final, frames, rendered, written, covered⟩

theorem block_size_inaudible_plain :
    ∃ first second, OfflineRenderer.renderAll KeyChoice.next (1 : ℝ) .mono 256 (by decide)
        plainPair = .ok first ∧
      OfflineRenderer.renderAll KeyChoice.next (1 : ℝ) .mono 512 (by decide)
        plainPair = .ok second ∧
      (first.written <+: second.written ∨ second.written <+: first.written) := by
  let sizes : Side → Nat := Side.rec 256 512
  have positive : ∀ side, 0 < sizes side := by
    intro side
    cases side <;> exact Nat.succ_pos _
  have long : ∀ side, 30 < sizes side ∧ sizes side ≤ u32Max := by
    intro side
    cases side <;> decide
  rcases block_size_inaudible realLaws 1 .mono (fun _ => KeyChoice.next) sizes positive
    (fun side => by cases side; exacts [Dvd.intro 1 rfl, Dvd.intro 2 rfl])
    (fun side => by cases side <;> decide) plainPair_sorted plainPair_sparse
    (fun side => plainPair_fits _
      (le_of_eq_of_le (plainPair_limit _ (long side).1) (long side).2))
    (fun side => plainPair_unrefused _ _) with ⟨finals, rendered, same⟩
  exact ⟨finals .left, finals .right, rendered .left, rendered .right, same⟩

end Engine
end Rfofs
