import Rfofs.Grain.Written

namespace Rfofs
namespace Grain

open Foundation

/-!
# The lifetime of a grain

How long a grain lives does not depend on its samples.  `Underway` describes a grain
by its phase and its counters alone, also in the middle of a block, where a transition
may be pending.  One turn of the block loop preserves it, and so does a kill.

A life that ends writes one sample for each step of the counter, from the onset to
`fadeoutEnd`, and no other sample.

Nothing is assumed of the arithmetic.  The lengths of the phases are the counters that
the program makes of the products and quotients it has computed, however these are
rounded.

A fade-out that is never entered may well end beyond the range of the counter: a grain
without a decay has its natural end at the largest counter.  `FadeFits` asks only for
the fade-out that is entered during the run.
-/

variable {R : Type*}

/-! ## Marks -/

/-- The samples of a range that come before `bound`. -/
def before (bound n : Nat) (buf : List R) : List Bool :=
  buf.mapIdx (fun k _ => decide (n + k < bound))

theorem before_of_ended {bound n : Nat} (ended : bound ≤ n) (buf : List R) :
    before bound n buf = List.replicate buf.length false := by
  apply List.ext_getElem
  · simp [before]
  · intro k inside _
    simp only [before, List.getElem_mapIdx, List.getElem_replicate, decide_eq_false_iff_not]
    omega

theorem before_of_within {bound n : Nat} {buf : List R} (within : n + buf.length ≤ bound) :
    before bound n buf = List.replicate buf.length true := by
  apply List.ext_getElem
  · simp [before]
  · intro k inside _
    simp only [before, List.length_mapIdx] at inside
    simp only [before, List.getElem_mapIdx, List.getElem_replicate, decide_eq_true_eq]
    omega

theorem before_append (bound n : Nat) (first second : List R) :
    before bound n (first ++ second) =
      before bound n first ++ before bound (n + first.length) second := by
  have shifted : ∀ k, n + (k + first.length) = n + first.length + k := fun k => by omega
  simp only [before, List.mapIdx_append, shifted]

/-- How many samples of a range lie between the onset and the end of a life. -/
theorem count_window (first length total : Nat) :
    ((List.range total).map (fun j => decide (first ≤ j ∧ j < first + length))).count true =
      min length (total - first) := by
  induction total with
  | zero => simp
  | succ total ih =>
      rw [List.range_succ, List.map_append, List.count_append, ih, List.map_singleton]
      by_cases inside : first ≤ total ∧ total < first + length
      · rw [decide_eq_true inside, List.count_singleton_self]
        omega
      · rw [decide_eq_false inside]
        simp only [List.count_cons, List.count_nil, beq_iff_eq, Bool.false_eq_true, if_false]
        omega

/-- The same for the marks of a run that begins before the onset. -/
theorem count_marks {clock onset : Nat} (starts : clock ≤ onset) (length : Nat) (input : List R) :
    (input.mapIdx (fun j _ => decide (onset ≤ clock + j ∧ clock + j < onset + length))).count true =
      min length (clock + input.length - onset) := by
  have range : input.mapIdx (fun j _ => decide
      (onset ≤ clock + j ∧ clock + j < onset + length)) =
        (List.range input.length).map (fun j => decide
          (onset - clock ≤ j ∧ j < onset - clock + length)) := by
    apply List.ext_getElem
    · simp
    · intro j _ _
      rw [List.getElem_mapIdx, List.getElem_map, List.getElem_range, decide_eq_decide]
      omega
  rw [range, count_window]
  omega

namespace FofState

/-- The clock behind a run of calls.  Kills take no time. -/
def endOf (clock : Nat) (calls : List (GrainCall R)) : Nat :=
  clock + (GrainCall.inputOf calls).length

theorem endOf_block (clock : Nat) (buf : List R) (rest : List (GrainCall R)) :
    endOf clock (.block buf :: rest) = endOf (clock + buf.length) rest := by
  have input : GrainCall.inputOf (.block buf :: rest) = buf ++ GrainCall.inputOf rest := rfl
  rw [endOf, endOf, input, List.length_append, Nat.add_assoc]

theorem firstKill_append {clock : Nat} {first : List (GrainCall R)}
    (unkilled : GrainCall.firstKill clock first = none) (second : List (GrainCall R)) :
    GrainCall.firstKill clock (first ++ second) = GrainCall.firstKill (endOf clock first) second := by
  induction first generalizing clock with
  | nil => rfl
  | cons call rest ih =>
      cases call with
      | block buf =>
          rw [endOf_block]
          exact ih unkilled
      | kill fadeDur => cases unkilled

/-! ## Phases move forward -/

/-- The grain has not entered its fade-out. -/
def Unfaded (s : FofState R) : Prop := 1 < s.phase.rank

theorem unfaded_iff (s : FofState R) : s.Unfaded ↔ s.phase = .attack ∨ s.phase = .decay := by
  unfold Unfaded
  cases s.phase <;> simp [FofPhase.rank]

theorem Unfaded.alive {s : FofState R} (unfaded : s.Unfaded) : s.phase ≠ .dead := by
  rcases (unfaded_iff s).mp unfaded with phase | phase <;> rw [phase] <;> decide

/-- The counter lies within the bounds of the phase. -/
def PhaseBounds (s : FofState R) : Prop :=
  (s.phase = .attack → s.t ≤ s.attackEnd) ∧
    (s.phase = .decay → s.attackEnd ≤ s.t ∧ s.t ≤ s.decayEnd) ∧
    (s.phase = .fadeOut → s.tFo ≤ s.t ∧ s.t ≤ s.fadeoutEnd)

section Counters

variable [Zero R] [LT R] [Max R] [Conversions R]

/-- A grain of which `n` samples have passed since its onset.  When it has entered a
fade-out, that is `entry`. -/
structure Underway (c : FofConstants R) (entry : FadeEntry R) (n : Nat) (s : FofState R) :
    Prop where
  constants : s.toFofConstants = c
  stage : (s.phase = .attack ∧ s.t = n ∧ n ≤ c.attackEnd) ∨
    (s.phase = .decay ∧ s.t = n ∧ c.attackEnd ≤ n ∧ n ≤ c.decayEnd) ∨
    ((s.tFo = entry.tFo ∧ s.fadeoutEnd = entry.fadeoutEnd) ∧
      ((s.phase = .fadeOut ∧ s.t = n ∧ entry.tFo ≤ n ∧ n ≤ entry.fadeoutEnd) ∨
        (s.phase = .dead ∧ s.t = entry.fadeoutEnd ∧ entry.fadeoutEnd ≤ n)))

variable {c : FofConstants R} {entry : FadeEntry R} {n : Nat} {s : FofState R}

theorem Underway.unfaded_t (underway : Underway c entry n s) (ordered : c.attackEnd ≤ c.decayEnd)
    (unfaded : s.Unfaded) : s.t = n ∧ n ≤ c.decayEnd := by
  rcases underway.stage with ⟨_, t, early⟩ | ⟨_, t, _, early⟩ | ⟨_, ⟨phase, _⟩ | ⟨phase, _⟩⟩
  · exact ⟨t, early.trans ordered⟩
  · exact ⟨t, early⟩
  · rw [unfaded_iff, phase] at unfaded
    simp at unfaded
  · rw [unfaded_iff, phase] at unfaded
    simp at unfaded

theorem Underway.phaseBounds {c : FofConstants R} {entry : FadeEntry R} {n : Nat}
    {s : FofState R} (underway : Underway c entry n s) : s.PhaseBounds := by
  have constants := underway.constants
  unfold PhaseBounds
  rw [constants]
  rcases underway.stage with ⟨phase, t, early⟩ | ⟨phase, t, late, early⟩ |
    ⟨entered, ⟨phase, t, first, last⟩ | ⟨phase, t, ended⟩⟩
  · simp [phase, t, early]
  · simp [phase, t, late, early]
  · simp [phase, t, entered, first, last]
  · simp [phase]

/-- Samples inside a phase.  No transition is due between them. -/
theorem Underway.run (underway : Underway c entry n s) (ordered : c.attackEnd ≤ c.decayEnd)
    {phaseEnd k : Nat} (alive : s.phaseEnd = some phaseEnd) (within : s.t + k ≤ phaseEnd)
    (toward : s.Unfaded → n + k ≤ entry.tFo ∨ entry.tFo = c.decayEnd) (acc : R) :
    Underway c entry (n + k) { s with decayAcc := acc, t := s.t + k } ∧
      n + k ≤ entry.fadeoutEnd := by
  have constants := underway.constants
  have reaches : entry.tFo ≤ entry.fadeoutEnd := Nat.le_add_right _ _
  rcases underway.stage with ⟨phase, t, early⟩ | ⟨phase, t, late, early⟩ |
    ⟨entered, ⟨phase, t, first, last⟩ | ⟨phase, _⟩⟩
  · have ends : phaseEnd = c.attackEnd := by
      rw [← constants]
      simpa [FofState.phaseEnd, phase] using alive.symm
    have ahead := toward ((unfaded_iff s).mpr (Or.inl phase))
    refine ⟨⟨constants, Or.inl ⟨phase, ?_, ?_⟩⟩, ?_⟩
    · change s.t + k = n + k
      omega
    · omega
    · omega
  · have ends : phaseEnd = c.decayEnd := by
      rw [← constants]
      simpa [FofState.phaseEnd, phase] using alive.symm
    have ahead := toward ((unfaded_iff s).mpr (Or.inr phase))
    refine ⟨⟨constants, Or.inr (Or.inl ⟨phase, ?_, by omega, by omega⟩)⟩, by omega⟩
    change s.t + k = n + k
    omega
  · have ends : phaseEnd = entry.fadeoutEnd := by
      rw [← entered.2]
      simpa [FofState.phaseEnd, phase] using alive.symm
    refine ⟨⟨constants, Or.inr (Or.inr ⟨entered, Or.inl ⟨phase, ?_, by omega, by omega⟩⟩)⟩,
      by omega⟩
    change s.t + k = n + k
    omega
  · simp [FofState.phaseEnd, phase] at alive

/-! ## Entering a fade-out -/

variable [Mul R]

/-- Entering a fade-out that fits. -/
theorem Underway.enter (constants : s.toFofConstants = c) (t : s.t = entry.tFo) (env : R)
    {fadeDur : R} (duration : entry.effectiveFadeDur = fadeDur * c.sampleRate)
    (fits : entry.fadeoutEnd < 2 ^ 32) :
    Underway c entry entry.tFo (s.enterFadeOut env fadeDur) := by
  let entered : FadeEntry R := { entry with envAtFo := env }
  have onset : s.t = entered.tFo := t
  have length : entered.effectiveFadeDur = fadeDur * c.sampleRate := duration
  have fading := fading_enterFadeOut constants onset length fits
  have ordered : entry.tFo ≤ entry.fadeoutEnd := Nat.le_add_right _ _
  exact ⟨constants, Or.inr (Or.inr ⟨⟨t, fading.fadeoutEnd⟩,
    Or.inl ⟨rfl, t, Nat.le_refl _, ordered⟩⟩)⟩

variable [Pow R Int]

/-- A transition that is due.  The grain is at the same sample before and after it. -/
theorem Underway.transition (underway : Underway c entry n s) (ordered : c.attackEnd ≤ c.decayEnd)
    {phaseEnd : Nat} (alive : s.phaseEnd = some phaseEnd) (due : phaseEnd ≤ s.t)
    (natural : s.Unfaded → n = c.decayEnd → entry.tFo = c.decayEnd ∧
      entry.effectiveFadeDur = c.params.fadeDur * c.sampleRate ∧ entry.fadeoutEnd < 2 ^ 32) :
    Underway c entry n s.transitionPhase := by
  have constants := underway.constants
  rcases underway.stage with ⟨phase, t, early⟩ | ⟨phase, t, late, early⟩ |
    ⟨entered, ⟨phase, t, first, last⟩ | ⟨phase, _⟩⟩
  · have ends : phaseEnd = c.attackEnd := by
      rw [← constants]
      simpa [FofState.phaseEnd, phase] using alive.symm
    simp only [transitionPhase, phase]
    exact ⟨constants, Or.inr (Or.inl ⟨rfl, t, by omega, early.trans ordered⟩)⟩
  · have ends : phaseEnd = c.decayEnd := by
      rw [← constants]
      simpa [FofState.phaseEnd, phase] using alive.symm
    have reached : n = c.decayEnd := by omega
    rcases natural ((unfaded_iff s).mpr (Or.inr phase)) reached with ⟨tFo, duration, fits⟩
    have here : s.t = entry.tFo := by omega
    have entering := Underway.enter constants here (s.decayEnvAt s.t)
      (duration.trans (by rw [← constants])) fits
    simp only [transitionPhase, phase]
    rwa [tFo, ← reached] at entering
  · have ends : phaseEnd = entry.fadeoutEnd := by
      rw [← entered.2]
      simpa [FofState.phaseEnd, phase] using alive.symm
    have reached : s.t = entry.fadeoutEnd := by omega
    simp only [transitionPhase, phase]
    exact ⟨constants, Or.inr (Or.inr ⟨entered, Or.inr ⟨rfl, reached, by omega⟩⟩)⟩
  · simp [FofState.phaseEnd, phase] at alive

end Counters

section Kills

variable [Zero R] [One R] [Add R] [Sub R] [Mul R] [Div R] [NatCast R] [Max R] [LT R] [Pow R Int]
  [Conversions R] [Sines R]

/-- A killed grain fades out or is dead. -/
theorem triggerFadeOut_faded (s : FofState R) (fadeDur : R) :
    ¬ (s.triggerFadeOut fadeDur).Unfaded := by
  unfold triggerFadeOut
  split
  · rename_i deaf
    rw [unfaded_iff]
    rcases deaf with phase | phase <;> rw [phase] <;> decide
  · exact Nat.lt_irrefl 1

theorem triggerFadeOut_of_faded {s : FofState R} (faded : ¬ s.Unfaded) (fadeDur : R) :
    s.triggerFadeOut fadeDur = s := by
  apply if_pos
  rw [unfaded_iff] at faded
  cases phase : s.phase <;> simp_all

theorem triggerFadeOut_rank (s : FofState R) (fadeDur : R) :
    (s.triggerFadeOut fadeDur).phase.rank ≤ s.phase.rank := by
  by_cases unfaded : s.Unfaded
  · have faded := s.triggerFadeOut_faded fadeDur
    unfold Unfaded at unfaded faded
    omega
  · rw [triggerFadeOut_of_faded unfaded]

end Kills

/-! ## Calls -/

section Calls

variable [Zero R] [One R] [Add R] [Sub R] [Mul R] [Div R] [NatCast R] [Max R] [LT R]
  [DecidableLT R] [RealOps R] [Sines R]

/-- A run writes no field but the accumulator. -/
theorem process_shape (s : FofState R) (buf : List R) :
    ∃ acc, (s.process buf).2 = { s with decayAcc := acc } := by
  have phases : s.phase = .attack ∨ s.phase = .decay ∨ s.phase = .fadeOut ∨ s.phase = .dead := by
    cases s.phase <;> simp
  rcases phases with phase | phase | phase | phase
  · have dispatch : s.process buf = s.processAttack buf := by simp only [process, phase]
    rw [dispatch, processAttack]
    split <;> exact ⟨_, rfl⟩
  · have dispatch : s.process buf = s.processDecay buf := by simp only [process, phase]
    rw [dispatch, processDecay]
    split <;> exact ⟨_, rfl⟩
  · have dispatch : s.process buf = s.processFadeout buf := by simp only [process, phase]
    rw [dispatch, processFadeout]
    split <;> exact ⟨s.decayAcc, rfl⟩
  · have dispatch : s.process buf = (buf, s) := by simp only [process, phase]
    rw [dispatch]
    exact ⟨s.decayAcc, rfl⟩

/-- What a turn of the loop makes of a grain, apart from the accumulator. -/
theorem process_advance (s : FofState R) (buf : List R) (runLen : Nat) :
    ∃ acc, ({ (s.process buf).2 with t := (s.process buf).2.t + runLen } : FofState R) =
      { s with decayAcc := acc, t := s.t + runLen } := by
  rcases s.process_shape buf with ⟨acc, shape⟩
  rw [shape]
  exact ⟨acc, rfl⟩

variable [Pow R Int] [Conversions R]

theorem fillLoop_rank (s : FofState R) (buf : List R) :
    (s.fillLoop buf).1.phase.rank ≤ s.phase.rank := by
  fun_induction fillLoop s buf with
  | case1 s => exact Nat.le_refl _
  | case2 s x rest dead => exact Nat.le_refl _
  | case3 s x rest phaseEnd alive remaining spent lower ih => exact ih.trans lower.le
  | case4 s x rest phaseEnd alive remaining left runLen run later ih =>
      have same : run.2.phase = s.phase := (s.process_t _).2
      exact same ▸ ih

theorem fillBlock_phase {s : FofState R} (alive : s.phase ≠ .dead) (blockStart : Nat)
    (buf : List R) :
    (s.fillBlock blockStart buf).1.phase =
      (s.fillLoop (buf.drop (s.params.startSample - blockStart))).1.phase := by
  rw [fillBlock_alive alive]
  rfl

theorem fillBlock_rank (s : FofState R) (blockStart : Nat) (buf : List R) :
    (s.fillBlock blockStart buf).1.phase.rank ≤ s.phase.rank := by
  by_cases dead : s.phase = .dead
  · unfold fillBlock
    rw [if_pos dead]
  · rw [fillBlock_phase dead]
    exact s.fillLoop_rank _

theorem renderCalls_rank (s : FofState R) (clock : Nat) (calls : List (GrainCall R)) :
    (s.renderCalls clock calls).1.phase.rank ≤ s.phase.rank := by
  induction calls generalizing s clock with
  | nil => exact Nat.le_refl _
  | cons call rest ih =>
      cases call with
      | block buf => exact (ih _ _).trans (s.fillBlock_rank clock buf)
      | kill fadeDur => exact (ih _ _).trans (s.triggerFadeOut_rank fadeDur)

/-- After a kill the grain fades out or is dead. -/
theorem renderCalls_faded (s : FofState R) (clock : Nat) {calls : List (GrainCall R)}
    (killed : (GrainCall.firstKill clock calls).isSome) :
    ¬ (s.renderCalls clock calls).1.Unfaded := by
  induction calls generalizing s clock with
  | nil => cases killed
  | cons call rest ih =>
      cases call with
      | block buf => exact ih _ _ killed
      | kill fadeDur =>
          have faded := s.triggerFadeOut_faded fadeDur
          have forward := (s.triggerFadeOut fadeDur).renderCalls_rank clock rest
          unfold Unfaded at faded ⊢
          rw [renderCalls]
          omega

/-- Up to the end of its decay a grain does not fade out by itself. -/
theorem fillLoop_unfaded {s : FofState R} (unfaded : s.Unfaded)
    (ordered : s.attackEnd ≤ s.decayEnd) (buf : List R) (short : s.t + buf.length ≤ s.decayEnd) :
    (s.fillLoop buf).1.Unfaded := by
  fun_induction fillLoop s buf with
  | case1 s => exact unfaded
  | case2 s x rest dead =>
      unfold FofState.phaseEnd at dead
      rcases (unfaded_iff s).mp unfaded with phase | phase <;> simp [phase] at dead
  | case3 s x rest phaseEnd alive remaining spent lower ih =>
      rcases (unfaded_iff s).mp unfaded with phase | phase
      · have turned : s.transitionPhase = { s with phase := .decay } := by
          simp only [transitionPhase, phase]
        rw [turned] at ih ⊢
        exact ih ((unfaded_iff _).mpr (Or.inr rfl)) ordered short
      · have ends : phaseEnd = s.decayEnd := by
          simp only [FofState.phaseEnd, phase, Option.some.injEq] at alive
          exact alive.symm
        rw [List.length_cons] at short
        omega
  | case4 s x rest phaseEnd alive remaining left runLen run later ih =>
      rcases s.process_advance ((x :: rest).take runLen) runLen with ⟨acc, ran⟩
      change (fillLoop { run.2 with t := run.2.t + runLen } _).1.Unfaded
      have bounded : runLen ≤ (x :: rest).length := min_le_right _ _
      rw [ran] at ih ⊢
      apply ih unfaded ordered
      rw [List.length_drop]
      change s.t + runLen + _ ≤ s.decayEnd
      omega

/-! ## On the way to a fade-out -/

variable {c : FofConstants R} {entry : FadeEntry R} {n : Nat} {s : FofState R}

/-- The displayed carrier plays no part. -/
theorem Underway.fillBlock_of_fillLoop {blockStart : Nat} {buf : List R} (alive : s.phase ≠ .dead)
    (underway : Underway c entry n
      (s.fillLoop (buf.drop (s.params.startSample - blockStart))).1) :
    Underway c entry n (s.fillBlock blockStart buf).1 := by
  rw [fillBlock_alive alive]
  exact ⟨underway.constants, underway.stage⟩

/-- The rest of a block.  While the grain is not fading, its fade-out is either not
ahead of the end of the block or the natural one. -/
theorem Underway.fillLoop (underway : Underway c entry n s) (ordered : c.attackEnd ≤ c.decayEnd)
    (buf : List R)
    (toward : s.Unfaded → n + buf.length ≤ entry.tFo ∧ entry.tFo ≤ c.decayEnd ∨
      entry.tFo = c.decayEnd ∧ entry.effectiveFadeDur = c.params.fadeDur * c.sampleRate)
    (fits : s.Unfaded → c.decayEnd < n + buf.length → entry.fadeoutEnd < 2 ^ 32) :
    Underway c entry (n + buf.length) (s.fillLoop buf).1 ∧
      (s.fillLoopWritten buf).map Option.isSome = before entry.fadeoutEnd n buf := by
  fun_induction FofState.fillLoop s buf generalizing n with
  | case1 s =>
      rw [fillLoopWritten]
      exact ⟨underway, rfl⟩
  | case2 s x rest dead =>
      rcases underway.stage with ⟨phase, _⟩ | ⟨phase, _⟩ | ⟨entered, ⟨phase, _⟩ | ⟨phase, t, ended⟩⟩
      · simp [FofState.phaseEnd, phase] at dead
      · simp [FofState.phaseEnd, phase] at dead
      · simp [FofState.phaseEnd, phase] at dead
      · rw [fillLoopWritten_dead dead, before_of_ended ended, List.map_replicate]
        exact ⟨⟨underway.constants, Or.inr (Or.inr ⟨entered,
          Or.inr ⟨phase, t, ended.trans (Nat.le_add_right _ _)⟩⟩)⟩, rfl⟩
  | case3 s x rest phaseEnd alive remaining spent lower =>
      rename_i ih
      rw [fillLoopWritten_due alive spent]
      have earlier : s.transitionPhase.Unfaded → s.Unfaded := fun unfaded => unfaded.trans lower
      refine ih (underway.transition ordered alive (by omega) ?_)
        (fun unfaded => toward (earlier unfaded)) (fun unfaded => fits (earlier unfaded))
      intro unfaded reached
      rw [List.length_cons] at toward fits
      rcases toward unfaded with ⟨ahead, bounded⟩ | ⟨tFo, duration⟩
      · omega
      · exact ⟨tFo, duration, fits unfaded (by omega)⟩
  | case4 s x rest phaseEnd alive remaining left runLen run later =>
      rename_i ih
      rcases s.process_advance ((x :: rest).take runLen) runLen with ⟨acc, ran⟩
      have bounded : runLen ≤ (x :: rest).length := min_le_right _ _
      have inPhase : runLen ≤ phaseEnd - s.t := min_le_left _ _
      have taken : ((x :: rest).take runLen).length = runLen := List.length_take_of_le bounded
      have total : n + runLen + ((x :: rest).drop runLen).length = n + (x :: rest).length := by
        rw [List.length_drop]
        omega
      have rendered : ((s.processWritten ((x :: rest).take runLen)).map some).map Option.isSome =
          List.replicate runLen true := by
        have length := (process_written alive ((x :: rest).take runLen)).2
        refine List.eq_replicate_iff.mpr ⟨?_, by simp⟩
        rw [List.length_map, List.length_map, length, taken]
      rw [fillLoopWritten_run alive left]
      change Underway c entry _ (FofState.fillLoop { run.2 with t := run.2.t + runLen } _).1 ∧
        (_ ++ FofState.fillLoopWritten { run.2 with t := run.2.t + runLen } _).map Option.isSome = _
      rw [ran] at ih ⊢
      have next := underway.run ordered alive (k := runLen) (by omega)
        (fun unfaded => (toward unfaded).imp (fun ahead => by omega) And.left) acc
      have done := ih next.1 (fun unfaded => total ▸ toward unfaded)
        (fun unfaded => total ▸ fits unfaded)
      rw [total] at done
      refine ⟨done.1, ?_⟩
      have front : n + ((x :: rest).take runLen).length ≤ entry.fadeoutEnd := by
        rw [taken]
        exact next.2
      rw [List.map_append, rendered, done.2]
      conv_rhs => rw [← List.take_append_drop runLen (x :: rest), before_append]
      rw [before_of_within front, taken]

theorem renderCalls_append (s : FofState R) (clock : Nat) (first second : List (GrainCall R)) :
    s.renderCalls clock (first ++ second) =
      let begun := s.renderCalls clock first
      let later := begun.1.renderCalls (endOf clock first) second
      (later.1, begun.2 ++ later.2) := by
  induction first generalizing s clock with
  | nil => rfl
  | cons call rest ih =>
      cases call with
      | block buf =>
          rw [List.cons_append, renderCalls, ih, endOf_block]
          simp only [renderCalls, List.append_assoc]
      | kill fadeDur => exact ih _ _

end Calls

end FofState

variable [Zero R] [One R] [Add R] [Sub R] [Mul R] [Div R] [NatCast R] [Max R] [LT R]
  [DecidableLT R] [Pow R Int] [RealOps R] [Conversions R] [Sines R]

/-- A fade-out that is entered in a run ends within the range of the counter.  The length is
the one that the arithmetic of `R` computes. -/
def FofConstants.FadeFits (c : FofConstants R) (clock : Nat) (calls : List (GrainCall R)) : Prop :=
  (GrainCall.firstKill clock calls).isSome ∨
      c.decayEnd < FofState.endOf clock calls - c.params.startSample →
    (c.fadeEntry clock calls).fadeoutEnd < 2 ^ 32

namespace FofState

/-- A grain that the calls from `clock` on lead to the fade-out `entry`, or have already
led there. -/
structure OnTheWay (c : FofConstants R) (entry : FadeEntry R) (clock : Nat)
    (calls : List (GrainCall R)) (s : FofState R) : Prop where
  underway : Underway c entry (clock - c.params.startSample) s
  leads : s.Unfaded → entry = c.fadeEntry clock calls ∧ c.FadeFits clock calls

namespace OnTheWay

variable {c : FofConstants R} {entry : FadeEntry R} {clock : Nat} {s : FofState R}
  {calls rest : List (GrainCall R)}

omit [DecidableLT R] [RealOps R] in
/-- The first kill decides; later ones find the grain in its fade-out. -/
theorem kill {fadeDur : R} (onTheWay : OnTheWay c entry clock (.kill fadeDur :: rest) s)
    (ordered : c.attackEnd ≤ c.decayEnd) :
    OnTheWay c entry clock rest (s.triggerFadeOut fadeDur) := by
  have faded := s.triggerFadeOut_faded fadeDur
  refine ⟨?_, fun unfaded => absurd unfaded faded⟩
  by_cases unfaded : s.Unfaded
  · have counted := onTheWay.underway.unfaded_t ordered unfaded
    have leads := onTheWay.leads unfaded
    have killed : entry = c.killedEntry (clock - c.params.startSample) fadeDur :=
      leads.1.trans (if_pos counted.2)
    have fits := leads.2 (Or.inl rfl)
    rw [← leads.1] at fits
    have here : s.t = entry.tFo := by
      rw [killed]
      exact counted.1
    have length : entry.effectiveFadeDur = fadeDur * c.sampleRate := by
      rw [killed]
      rfl
    have entering := Underway.enter onTheWay.underway.constants here s.envelope length fits
    rw [← here, counted.1] at entering
    rwa [triggerFadeOut_of_heard ((unfaded_iff s).mp unfaded)]
  · rw [triggerFadeOut_of_faded unfaded]
    exact onTheWay.underway

/-- A block renders what lies between the onset and the end of the fade-out. -/
theorem block {buf : List R} (onTheWay : OnTheWay c entry clock (.block buf :: rest) s)
    (ordered : c.attackEnd ≤ c.decayEnd) :
    OnTheWay c entry (clock + buf.length) rest (s.fillBlock clock buf).1 ∧
      (s.fillBlockWritten clock buf).map Option.isSome = buf.mapIdx (fun j _ => decide
        (c.params.startSample ≤ clock + j ∧
          clock + j < c.params.startSample + entry.fadeoutEnd)) := by
  have params : s.params = c.params := congrArg FofConstants.params onTheWay.underway.constants
  have counted : clock - c.params.startSample + (buf.drop (c.params.startSample - clock)).length =
      clock + buf.length - c.params.startSample := by
    rw [List.length_drop]
    omega
  have earlier : (s.fillBlock clock buf).1.Unfaded → s.Unfaded :=
    fun unfaded => Nat.lt_of_lt_of_le unfaded (s.fillBlock_rank clock buf)
  have continues : (s.fillBlock clock buf).1.Unfaded →
      entry = c.fadeEntry (clock + buf.length) rest ∧ c.FadeFits (clock + buf.length) rest := by
    intro unfaded
    have leads := onTheWay.leads (earlier unfaded)
    refine ⟨leads.1, ?_⟩
    have fits := leads.2
    rw [FofConstants.FadeFits, endOf_block] at fits
    exact fits
  by_cases dead : s.phase = .dead
  · have same : s.fillBlock clock buf = (s, buf) := if_pos dead
    rcases onTheWay.underway.stage with ⟨phase, _⟩ | ⟨phase, _⟩ |
      ⟨entered, ⟨phase, _⟩ | ⟨phase, t, ended⟩⟩
    · simp [dead] at phase
    · simp [dead] at phase
    · simp [dead] at phase
    · refine ⟨⟨?_, continues⟩, ?_⟩
      · rw [same]
        exact ⟨onTheWay.underway.constants, Or.inr (Or.inr ⟨entered, Or.inr ⟨phase, t, by omega⟩⟩)⟩
      · rw [fillBlockWritten, if_pos dead, List.map_replicate]
        apply List.ext_getElem
        · simp
        · intro k inside _
          rw [List.getElem_replicate, Option.isSome_none, List.getElem_mapIdx, eq_comm, decide_eq_false_iff_not]
          omega
  · have filled := onTheWay.underway.fillLoop ordered (buf.drop (c.params.startSample - clock)) (by
      intro unfaded
      have leads : entry = c.fadeEntry (clock + buf.length) rest := (onTheWay.leads unfaded).1
      rw [counted, leads]
      by_cases inside : clock + buf.length - c.params.startSample ≤ c.decayEnd
      · exact Or.inl ⟨FofConstants.fadeEntry_late inside rest,
          FofConstants.fadeEntry_tFo_le _ rest⟩
      · rw [FofConstants.fadeEntry_natural (Nat.lt_of_not_le inside) rest]
        exact Or.inr ⟨rfl, rfl⟩) (by
      intro unfaded past
      have leads := onTheWay.leads unfaded
      rw [leads.1]
      apply leads.2
      rw [endOf_block, endOf]
      omega)
    rw [counted] at filled
    refine ⟨⟨Underway.fillBlock_of_fillLoop dead (by rw [params]; exact filled.1), continues⟩, ?_⟩
    rw [fillBlockWritten, if_neg dead, params]
    dsimp only
    rw [List.map_append, List.map_replicate, filled.2]
    conv_rhs => rw [← List.take_append_drop (c.params.startSample - clock) buf, List.mapIdx_append]
    congr 1
    · apply List.ext_getElem
      · simp
      · intro k inside _
        rw [List.length_replicate, List.length_take] at inside
        rw [List.getElem_replicate, Option.isSome_none, List.getElem_mapIdx, eq_comm,
          decide_eq_false_iff_not]
        omega
    · apply List.mapIdx_eq_mapIdx_iff.mpr
      intro k inside
      rw [List.length_drop] at inside
      rw [List.length_take, decide_eq_decide]
      omega

/-- Whole runs, by one call after the other. -/
theorem run {after : List (GrainCall R)} (ordered : c.attackEnd ≤ c.decayEnd)
    (earlier : List (GrainCall R)) (onTheWay : OnTheWay c entry clock (earlier ++ after) s) :
    OnTheWay c entry (endOf clock earlier) after (s.renderCalls clock earlier).1 ∧
      (s.written clock earlier).map Option.isSome = (GrainCall.inputOf earlier).mapIdx (fun j _ => decide
        (c.params.startSample ≤ clock + j ∧
          clock + j < c.params.startSample + entry.fadeoutEnd)) := by
  induction earlier generalizing s clock with
  | nil => exact ⟨onTheWay, rfl⟩
  | cons call rest ih =>
      cases call with
      | block buf =>
          have first := onTheWay.block ordered
          have later := ih first.1
          have input : GrainCall.inputOf (.block buf :: rest) = buf ++ GrainCall.inputOf rest := rfl
          have shifted : ∀ j, clock + (j + buf.length) = clock + buf.length + j := fun j => by omega
          rw [endOf_block, written, List.map_append, first.2, later.2, input, List.mapIdx_append]
          simp only [shifted]
          exact ⟨later.1, trivial⟩
      | kill fadeDur => exact ih (onTheWay.kill ordered)

/-- Without a kill the grain does not fade out before the end of its decay. -/
theorem unfaded {after : List (GrainCall R)} (ordered : c.attackEnd ≤ c.decayEnd)
    (earlier : List (GrainCall R)) (onTheWay : OnTheWay c entry clock (earlier ++ after) s)
    (begins : s.Unfaded) (unkilled : GrainCall.firstKill clock earlier = none)
    (short : endOf clock earlier - c.params.startSample ≤ c.decayEnd) :
    (s.renderCalls clock earlier).1.Unfaded := by
  induction earlier generalizing s clock with
  | nil => exact begins
  | cons call rest ih =>
      cases call with
      | block buf =>
          rw [endOf_block] at short
          refine ih (onTheWay.block ordered).1 ?_ unkilled short
          have constants := onTheWay.underway.constants
          have params : s.params = c.params := congrArg FofConstants.params constants
          have counted := onTheWay.underway.unfaded_t ordered begins
          unfold Unfaded
          rw [fillBlock_phase begins.alive, params]
          have within : s.t + (buf.drop (c.params.startSample - clock)).length ≤ s.decayEnd := by
            rw [List.length_drop, counted.1, constants]
            unfold endOf at short
            omega
          exact fillLoop_unfaded begins (by rwa [constants]) _ within
      | kill fadeDur => cases unkilled

end OnTheWay

end FofState

/-- The number of samples of a whole life, given the calls from `clock` on. -/
def FofConstants.lifetime (c : FofConstants R) (clock : Nat) (calls : List (GrainCall R)) : Nat :=
  (c.fadeEntry clock calls).fadeoutEnd

section Spawned

variable [Neg R] [LE R] [DecidableEq R] [DecidableLE R]

namespace FofState

omit [Add R] [Pow R Int] [Sines R] in
theorem Underway.spawn (params : FofParams R) (sampleRate : R) (entry : FadeEntry R) :
    Underway (FofState.spawn params sampleRate).toFofConstants entry 0
      (FofState.spawn params sampleRate) :=
  ⟨rfl, Or.inl ⟨rfl, rfl, Nat.zero_le _⟩⟩

end FofState

/-- A first kill decides the lifetime when it finds the grain in its attack or decay, and
the natural fade-out when it does not. -/
theorem lifetime_of_first_kill (params : FofParams R) (sampleRate : R)
    {clock : Nat} {earlier rest : List (GrainCall R)} {fadeDur : R}
    (begins : FofState.OnTheWay (FofState.spawn params sampleRate).toFofConstants
      ((FofState.spawn params sampleRate).fadeEntry clock (earlier ++ .kill fadeDur :: rest)) clock
      (earlier ++ .kill fadeDur :: rest) (FofState.spawn params sampleRate))
    (unkilled : GrainCall.firstKill clock earlier = none) :
    let s := FofState.spawn params sampleRate
    let b := (s.renderCalls clock earlier).1
    s.lifetime clock (earlier ++ .kill fadeDur :: rest) =
      if b.phase = .attack ∨ b.phase = .decay
        then b.t + ceilU32 (fadeDur * sampleRate)
        else s.decayEnd + ceilU32 (params.fadeDur * sampleRate) := by
  intro s b
  have ordered : s.attackEnd ≤ s.decayEnd := Nat.le_max_right _ _
  have attacking : s.Unfaded := (FofState.unfaded_iff s).mpr (Or.inl rfl)
  have reached := (begins.run ordered earlier).1
  have found : GrainCall.firstKill clock (earlier ++ .kill fadeDur :: rest) =
      some (FofState.endOf clock earlier, fadeDur) := FofState.firstKill_append unkilled _
  split
  · rename_i phase
    have unfaded := (FofState.unfaded_iff _).mpr phase
    have counted := reached.underway.unfaded_t ordered unfaded
    rw [counted.1]
    change (s.fadeEntry clock _).fadeoutEnd = _
    unfold FofConstants.fadeEntry
    rw [found]
    exact congrArg FadeEntry.fadeoutEnd (if_pos counted.2)
  · rename_i phase
    have past : ¬ FofState.endOf clock earlier - params.startSample ≤ s.decayEnd :=
      fun short => phase ((FofState.unfaded_iff _).mp
        (begins.unfaded ordered earlier attacking unkilled short))
    change (s.fadeEntry clock _).fadeoutEnd = _
    unfold FofConstants.fadeEntry
    rw [found]
    exact congrArg FadeEntry.fadeoutEnd (if_neg past)

/-- The exact lifetime of a grain, for contiguous calls from before its onset on.  At
every boundary between calls the counter lies within the bounds of the phase and has
counted the samples since the onset, until the grain has died after `lifetime`
samples; phases only move forward; after a first kill the others change nothing.  The
lifetime runs to the end of the fade-out, from the first kill when that finds the grain
in its attack or decay, else from the end of the decay.  Exactly the samples of the
lifetime are rendered, and all others are left untouched. -/
theorem grain_lifetime (params : FofParams R) (sampleRate : R)
    {clock : Nat} (starts : clock ≤ params.startSample) (calls : List (GrainCall R))
    (fits : (FofState.spawn params sampleRate).FadeFits clock calls) :
    let s := FofState.spawn params sampleRate
    let lifetime := s.lifetime clock calls
    (∀ earlier after, earlier ++ after = calls →
      let b := (s.renderCalls clock earlier).1
      b.PhaseBounds ∧
      (b.phase ≠ .dead → b.t = FofState.endOf clock earlier - params.startSample) ∧
      (b.phase = .dead → b.t = lifetime ∧
        lifetime ≤ FofState.endOf clock earlier - params.startSample) ∧
      (∀ next, next <+: after →
        (s.renderCalls clock (earlier ++ next)).1.phase.rank ≤ b.phase.rank) ∧
      ((GrainCall.firstKill clock earlier).isSome → ∀ fadeDur, b.triggerFadeOut fadeDur = b) ∧
      (∀ fadeDur rest, after = .kill fadeDur :: rest → GrainCall.firstKill clock earlier = none →
        lifetime = if b.phase = .attack ∨ b.phase = .decay
          then b.t + ceilU32 (fadeDur * sampleRate)
          else s.decayEnd + ceilU32 (params.fadeDur * sampleRate))) ∧
    (GrainCall.firstKill clock calls = none →
      lifetime = s.decayEnd + ceilU32 (params.fadeDur * sampleRate)) ∧
    (s.renderCalls clock calls).2 =
      List.zipWith (write s.ampTotal) (s.written clock calls) (GrainCall.inputOf calls) ∧
    (s.written clock calls).map Option.isSome = (GrainCall.inputOf calls).mapIdx (fun j _ => decide
      (params.startSample ≤ clock + j ∧ clock + j < params.startSample + lifetime)) ∧
    ((s.written clock calls).map Option.isSome).count true =
      min lifetime (FofState.endOf clock calls - params.startSample) := by
  intro s lifetime
  have ordered : s.attackEnd ≤ s.decayEnd := Nat.le_max_right _ _
  have onset : clock - params.startSample = 0 := Nat.sub_eq_zero_of_le starts
  have begins : FofState.OnTheWay s.toFofConstants (s.fadeEntry clock calls) clock calls s := by
    refine ⟨?_, fun _ => ⟨rfl, fits⟩⟩
    change FofState.Underway _ _ (clock - params.startSample) s
    rw [onset]
    exact FofState.Underway.spawn params sampleRate _
  have marks : (s.written clock calls).map Option.isSome =
      (GrainCall.inputOf calls).mapIdx (fun j _ => decide
      (params.startSample ≤ clock + j ∧ clock + j < params.startSample + lifetime)) := by
    have whole : FofState.OnTheWay s.toFofConstants (s.fadeEntry clock calls) clock
        (calls ++ []) s := by
      rwa [List.append_nil]
    exact (whole.run ordered calls).2
  refine ⟨?_, ?_, s.renderCalls_written clock calls, marks, ?_⟩
  · rintro earlier after rfl
    have reached := (begins.run ordered earlier).1
    have constants := reached.underway.constants
    refine ⟨reached.underway.phaseBounds, ?_, ?_, ?_, ?_, ?_⟩
    · intro alive
      rcases reached.underway.stage with ⟨_, t, _⟩ | ⟨_, t, _⟩ | ⟨_, ⟨_, t, _⟩ | ⟨dead, _⟩⟩
      · exact t
      · exact t
      · exact t
      · exact absurd dead alive
    · intro dead
      rcases reached.underway.stage with ⟨phase, _⟩ | ⟨phase, _⟩ |
        ⟨_, ⟨phase, _⟩ | ⟨_, t, ended⟩⟩
      · simp [dead] at phase
      · simp [dead] at phase
      · simp [dead] at phase
      · exact ⟨t, ended⟩
    · intro next _
      rw [FofState.renderCalls_append]
      exact FofState.renderCalls_rank _ _ _
    · intro killed fadeDur
      exact FofState.triggerFadeOut_of_faded (s.renderCalls_faded clock killed) fadeDur
    · rintro fadeDur rest rfl unkilled
      exact lifetime_of_first_kill params sampleRate begins unkilled
  · intro unkilled
    change (s.fadeEntry clock calls).fadeoutEnd = _
    unfold FofConstants.fadeEntry
    rw [unkilled]
    rfl
  · rw [marks]
    exact count_marks starts lifetime _

/-- A grain with its onset inside the first block, killed after its first sample: four
samples are rendered. -/
theorem grain_lifetime_killed :
    let params : FofParams ℝ := ⟨1, 5, 440, 1, 0, 1, 0, 2, 0, 3, 0, 0, 1⟩
    let calls : List (GrainCall ℝ) := [.block [0, 0], .kill 3, .block [0, 0, 0, 0, 0]]
    (((FofState.spawn params 1).written 4 calls).map Option.isSome).count true =
      min ((FofState.spawn params 1).lifetime 4 calls) 6 := by
  intro params calls
  have entry : (FofState.spawn params 1).fadeEntry 4 calls =
      (FofState.spawn params 1).killedEntry 1 3 := by
    apply if_pos
    have endless : (FofState.spawn params 1).decayEnd =
        max u32Max (FofState.spawn params 1).attackEnd := by
      simp [FofState.spawn, params]
    change 6 - 5 ≤ _
    rw [endless]
    exact le_max_of_le_left (by decide)
  have fits : (FofState.spawn params 1).FadeFits 4 calls := by
    intro _
    have duration : ceilU32 ((3 : ℝ) * 1) = 3 := ceilU32_whole (by norm_num) (by decide)
    rw [entry]
    change 1 + ceilU32 ((3 : ℝ) * 1) < 2 ^ 32
    rw [duration]
    decide
  exact (grain_lifetime params 1 (by decide) calls fits).2.2.2.2

end Spawned

end Grain
end Rfofs
