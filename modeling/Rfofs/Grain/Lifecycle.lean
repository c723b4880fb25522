import Rfofs.Grain.Trajectory

namespace Rfofs
namespace Grain

open Foundation

/-!
# The events of a life

A life has three events: the grain leaves its attack, it enters its fade-out, it dies.
`lifeEvents` is the log of a run of calls.  It goes through the loop of `fillBlock`
and notes every change of phase at the counter at which it happens, so a change that
was due at the end of a block is noted when the next call makes it.

What is still missing in the log can be read off the phase (`Life.remaining`), and one
step notes exactly what it makes no longer missing.  The log of a grain that has died
is therefore complete.
-/

/-- The part of a grain that its life is told from. -/
structure Stage (R : Type*) where
  phase : FofPhase
  t : Nat
  tFo : Nat
  effectiveFadeDur : R

/-- The end of the attack, the entry of the fade-out with its length, and the death, each with
its sample. -/
inductive LifeEvent (R : Type*) where
  | leftAttack (t : Nat)
  | enteredFadeOut (tFo : Nat) (effectiveFadeDur : R)
  | died (t : Nat)

/-- A whole life: when the three transitions happen. -/
@[ext]
structure Life (R : Type*) where
  leftAttack : Nat
  tFo : Nat
  effectiveFadeDur : R
  died : Nat

section Events

variable {R : Type*}

/-- The events of one change of stage. -/
def Stage.events (before after : Stage R) : List (LifeEvent R) :=
  (if before.phase = .attack ∧ after.phase ≠ .attack then [.leftAttack after.t] else []) ++
  (if 1 < before.phase.rank ∧ after.phase.rank ≤ 1 then
    [.enteredFadeOut after.tFo after.effectiveFadeDur] else []) ++
  (if before.phase ≠ .dead ∧ after.phase = .dead then [.died after.t] else [])

/-- The events of a life that a grain in a phase has still ahead. -/
def Life.remaining (life : Life R) : FofPhase → List (LifeEvent R)
  | .attack =>
      [.leftAttack life.leftAttack, .enteredFadeOut life.tFo life.effectiveFadeDur,
        .died life.died]
  | .decay => [.enteredFadeOut life.tFo life.effectiveFadeDur, .died life.died]
  | .fadeOut => [.died life.died]
  | .dead => []

/-- Two complete lives are told by the same events only when they are the same. -/
theorem Life.remaining_attack_injective {life other : Life R}
    (same : life.remaining .attack = other.remaining .attack) : life = other := by
  simp only [Life.remaining, List.cons.injEq, LifeEvent.leftAttack.injEq,
    LifeEvent.enteredFadeOut.injEq, LifeEvent.died.injEq, and_true] at same
  exact Life.ext same.1 same.2.1.1 same.2.1.2 same.2.2

theorem Life.remaining_dead (life : Life R) : life.remaining .dead = [] :=
  rfl

theorem Stage.events_of_same {before after : Stage R} (same : after.phase = before.phase) :
    before.events after = [] := by
  unfold Stage.events
  rw [same]
  cases before.phase <;> rfl

variable {before after : Stage R} {life : Life R}

theorem Stage.events_leftAttack (attack : before.phase = .attack) (decay : after.phase = .decay)
    (left : after.t = life.leftAttack) :
    before.events after ++ life.remaining after.phase = life.remaining before.phase := by
  simp [Stage.events, Life.remaining, attack, decay, left, FofPhase.rank]

theorem Stage.events_enteredFadeOut (decay : before.phase = .decay)
    (fadeOut : after.phase = .fadeOut) (tFo : after.tFo = life.tFo)
    (duration : after.effectiveFadeDur = life.effectiveFadeDur) :
    before.events after ++ life.remaining after.phase = life.remaining before.phase := by
  simp [Stage.events, Life.remaining, decay, fadeOut, tFo, duration, FofPhase.rank]

theorem Stage.events_died (fadeOut : before.phase = .fadeOut) (dead : after.phase = .dead)
    (died : after.t = life.died) :
    before.events after ++ life.remaining after.phase = life.remaining before.phase := by
  simp [Stage.events, Life.remaining, fadeOut, dead, died, FofPhase.rank]

/-- A kill during the attack ends the attack as well. -/
theorem Stage.events_killed (attack : before.phase = .attack) (fadeOut : after.phase = .fadeOut)
    (left : after.t = life.leftAttack) (tFo : after.tFo = life.tFo)
    (duration : after.effectiveFadeDur = life.effectiveFadeDur) :
    before.events after ++ life.remaining after.phase = life.remaining before.phase := by
  simp [Stage.events, Life.remaining, attack, fadeOut, left, tFo, duration, FofPhase.rank]

theorem Stage.events_quiet (same : after.phase = before.phase) :
    before.events after ++ life.remaining after.phase = life.remaining before.phase := by
  rw [Stage.events_of_same same, same, List.nil_append]

end Events

/-! ## The events of the transitions -/

variable {R : Type*}

namespace FofState

def stage (s : FofState R) : Stage R where
  phase := s.phase
  t := s.t
  tFo := s.tFo
  effectiveFadeDur := s.effectiveFadeDur

variable [Field R] [LinearOrder R] [FloorRing R]

/-- The events of the transitions that are due. -/
def settleEvents (s : FofState R) : List (LifeEvent R) :=
  s.stage.events s.settleStep.stage ++
    (s.settleStep.stage.events s.settleStep.settleStep.stage ++
      s.settleStep.settleStep.stage.events s.settle.stage)

theorem settleEvents_of_settled {s : FofState R} (settled : s.settleStep = s) :
    s.settleEvents = [] := by
  have quiet : s.stage.events s.stage = [] := Stage.events_of_same rfl
  rw [settleEvents, settle, settled, settled, settled, quiet]
  rfl

/-- Making a due transition early moves its event forward. -/
theorem settleEvents_settleStep (s : FofState R) :
    s.settleEvents = s.stage.events s.settleStep.stage ++ s.settleStep.settleEvents := by
  have fixed : s.settle.settleStep = s.settle := settle_fixed s
  have quiet : s.settle.stage.events s.settle.stage = [] := Stage.events_of_same rfl
  have later : s.settleStep.settleEvents =
      s.settleStep.stage.events s.settleStep.settleStep.stage ++
        (s.settleStep.settleStep.stage.events s.settle.stage ++
          s.settle.stage.events s.settle.stage) := by
    rw [settleEvents, settle_settleStep]
    rfl
  rw [later, quiet, List.append_nil, settleEvents]

/-! ## The life of a grain -/

/-- The life that the calls on a grain lead to. -/
def life (c : FofConstants R) (entry : FadeEntry R) : Life R where
  leftAttack := min c.attackEnd entry.tFo
  tFo := entry.tFo
  effectiveFadeDur := entry.effectiveFadeDur
  died := entry.fadeoutEnd

/-- A grain between two transitions of one sample. -/
def OnCourse (c : FofConstants R) (entry : FadeEntry R) (s : FofState R) : Prop :=
  (s.toFofConstants = c ∧
    (s.t < entry.tFo ∧ entry.tFo ≤ c.decayEnd ∨ entry = c.naturalEntry) ∧
    (s.phase = .attack ∧ s.t ≤ c.attackEnd ∨
      s.phase = .decay ∧ c.attackEnd ≤ s.t ∧ s.t ≤ c.decayEnd)) ∨
  ∃ n, Fading c entry n s

variable {c : FofConstants R} {entry : FadeEntry R} {n : Nat} {s : FofState R}

theorem Active.onCourse (active : Active c entry n s) : OnCourse c entry s := by
  rcases active with ⟨rising, toward⟩ | fading
  · refine Or.inl ⟨rising.constants, rising.t.symm ▸ toward, ?_⟩
    rw [rising.t]
    rcases rising.phase with ⟨phase, early⟩ | ⟨phase, late, before⟩
    · exact Or.inl ⟨phase, early⟩
    · exact Or.inr ⟨phase, late.le, before⟩
  · exact Or.inr ⟨n, fading⟩

section Living

variable (ordered : c.attackEnd ≤ c.decayEnd)
  (fits : entry.fadeoutEnd < 2 ^ 32)

include ordered fits

/-- A transition notes the event that is no longer missing. -/
theorem OnCourse.settleStep (course : OnCourse c entry s) :
    s.stage.events s.settleStep.stage ++ (life c entry).remaining s.settleStep.phase =
        (life c entry).remaining s.phase ∧
      OnCourse c entry s.settleStep := by
  have quiet : s.settleStep = s →
      s.stage.events s.settleStep.stage ++ (life c entry).remaining s.settleStep.phase =
        (life c entry).remaining s.phase ∧ OnCourse c entry s.settleStep := by
    intro same
    rw [same]
    exact ⟨Stage.events_quiet rfl, course⟩
  rcases course with ⟨constants, toward, ⟨phase, early⟩ | ⟨phase, late, before⟩⟩ | ⟨n, fading⟩
  · have alive : s.phaseEnd = some c.attackEnd := by simp only [phaseEnd, phase, constants]
    by_cases inside : s.t < c.attackEnd
    · exact quiet (settleStep_of_inside alive inside)
    · have due : s.settleStep = { s with phase := .decay } := by
        rw [settleStep_of_due alive (by omega)]
        simp only [transitionPhase, phase]
      have last : s.t = min c.attackEnd entry.tFo := by
        rcases toward with ⟨ahead, _⟩ | natural
        · omega
        · rw [natural]
          change s.t = min c.attackEnd c.decayEnd
          omega
      rw [due]
      exact ⟨Stage.events_leftAttack phase rfl last,
        Or.inl ⟨constants, toward, Or.inr ⟨rfl, Nat.le_of_not_lt inside, early.trans ordered⟩⟩⟩
  · have alive : s.phaseEnd = some c.decayEnd := by simp only [phaseEnd, phase, constants]
    by_cases inside : s.t < c.decayEnd
    · exact quiet (settleStep_of_inside alive inside)
    · have natural : entry = c.naturalEntry := by
        rcases toward with ⟨ahead, bounded⟩ | natural
        · omega
        · exact natural
      have last : s.t = c.decayEnd := by omega
      subst natural
      have due : s.settleStep = s.enterFadeOut c.naturalEntry.envAtFo c.params.fadeDur := by
        rw [settleStep_of_due alive (by omega)]
        simp only [transitionPhase, phase, constants, last]
        rfl
      have onset : s.t = c.naturalEntry.tFo := last
      have fading := fading_enterFadeOut constants onset rfl fits
      rw [due]
      exact ⟨Stage.events_enteredFadeOut phase rfl fading.tFo fading.effectiveFadeDur,
        Or.inr ⟨_, fading⟩⟩
  · rcases fading.phase with ⟨phase, t, entered, within⟩ | ⟨phase, t, past⟩
    · have alive : s.phaseEnd = some entry.fadeoutEnd := by
        simp only [phaseEnd, phase, fading.fadeoutEnd]
      by_cases inside : s.t < entry.fadeoutEnd
      · exact quiet (settleStep_of_inside alive inside)
      · have due : s.settleStep = { s with phase := .dead } := by
          rw [settleStep_of_due alive (by omega)]
          simp only [transitionPhase, phase]
        have last : s.t = entry.fadeoutEnd := by omega
        rw [due]
        exact ⟨Stage.events_died phase rfl last, Or.inr ⟨entry.fadeoutEnd + 1,
          { fading with phase := Or.inr ⟨rfl, last, Nat.lt_succ_self _⟩ }⟩⟩
    · apply quiet
      simp only [FofState.settleStep, phaseEnd_of_dead phase]

theorem OnCourse.settle (course : OnCourse c entry s) :
    s.settleEvents ++ (life c entry).remaining s.settle.phase =
      (life c entry).remaining s.phase := by
  have first := course.settleStep ordered fits
  have second := first.2.settleStep ordered fits
  have third := second.2.settleStep ordered fits
  rw [settleEvents, List.append_assoc, List.append_assoc]
  exact (congrArg _ ((congrArg _ third.1).trans second.1)).trans first.1

end Living

/-! ## The log of the block loop -/

variable [RealOps R]

/-- The events that `fillLoop` goes through, in their order. -/
def fillLoopEvents (s : FofState R) (buf : List R) : List (LifeEvent R) :=
  match buf with
  | [] => []
  | x :: rest =>
      match alive : s.phaseEnd with
      | none => []
      | some phaseEnd =>
          let remaining := phaseEnd - s.t
          if remaining = 0 then
            have := transitionPhase_rank alive
            s.stage.events s.transitionPhase.stage ++ s.transitionPhase.fillLoopEvents (x :: rest)
          else
            let runLen := min remaining (x :: rest).length
            let run := s.process ((x :: rest).take runLen)
            let ran := { run.2 with t := run.2.t + runLen }
            s.stage.events ran.stage ++ ran.fillLoopEvents ((x :: rest).drop runLen)
termination_by 4 * buf.length + s.phase.rank
decreasing_by
  · omega
  · exact run_measure (by assumption) run.2.phase s.phase x rest

def fillBlockEvents (s : FofState R) (blockStart : Nat) (buf : List R) : List (LifeEvent R) :=
  if s.phase = .dead then
    []
  else
    s.fillLoopEvents (buf.drop (s.params.startSample - blockStart))

/-- The log of contiguous calls. -/
def lifeEvents (s : FofState R) (clock : Nat) : List (GrainCall R) → List (LifeEvent R)
  | [] => []
  | .block buf :: rest =>
      s.fillBlockEvents clock buf ++
        (s.fillBlock clock buf).1.lifeEvents (clock + buf.length) rest
  | .kill fadeDur :: rest =>
      s.stage.events (s.triggerFadeOut fadeDur).stage ++
        (s.triggerFadeOut fadeDur).lifeEvents clock rest

/-- The log of the block loop is the log of the sample machine. -/
theorem fillLoopEvents_eq (laws : ExpLaws R) {s : FofState R} (sound : s.Sound) (buf : List R) :
    s.fillLoopEvents buf =
      (List.range buf.length).flatMap (fun k => (sampleStep^[k] s).settleEvents) := by
  fun_induction fillLoopEvents s buf with
  | case1 s => rfl
  | case2 s x rest dead =>
      have fixed : ∀ k, sampleStep^[k] s = s := Function.iterate_fixed (sampleStep_of_dead dead)
      have settled : s.settleStep = s := by simp only [settleStep, dead]
      simp only [fixed, settleEvents_of_settled settled]
      simp
  | case3 s x rest phaseEnd alive remaining spent lower ih =>
      have due : s.settleStep = s.transitionPhase := settleStep_of_due alive (by omega)
      rw [ih sound.transitionPhase, ← due, List.length_cons, List.range_succ_eq_map,
        List.flatMap_cons, List.flatMap_cons, List.flatMap_map, List.flatMap_map,
        ← List.append_assoc]
      simp only [iterate_sampleStep_settleStep, Function.iterate_zero, id_eq]
      rw [← settleEvents_settleStep]
  | case4 s x rest phaseEnd alive remaining left runLen run ran ih =>
      have bounded : runLen ≤ (x :: rest).length := min_le_right _ _
      have within : s.t + runLen ≤ phaseEnd := by omega
      have taken : ((x :: rest).take runLen).length = runLen := List.length_take_of_le bounded
      have machine : sampleStep^[runLen] s = s.ranFor runLen := iterate_sampleStep alive within
      have rendered := process_eq laws sound alive ((x :: rest).take runLen)
      rw [taken] at rendered
      have reached : ran = sampleStep^[runLen] s := by
        rw [machine, ← rendered.2]
      have samePhase : ran.stage.phase = s.stage.phase := by
        change ran.phase = s.phase
        rw [reached, machine, ranFor_phase]
      have quiet : (List.range runLen).flatMap (fun k => (sampleStep^[k] s).settleEvents) = [] := by
        apply List.flatMap_eq_nil_iff.mpr
        intro k member
        have inside := List.mem_range.mp member
        rw [iterate_sampleStep alive (by omega)]
        apply settleEvents_of_settled
        have before : (s.ranFor k).t < phaseEnd := by
          rw [ranFor_t alive]
          omega
        exact settleStep_of_inside ((ranFor_phaseEnd s k).trans alive) before
      have soundLater : ran.Sound := by
        rw [reached]
        exact sound.iterate_sampleStep runLen
      have split : (x :: rest).length = runLen + ((x :: rest).drop runLen).length := by
        rw [List.length_drop]
        omega
      rw [ih soundLater, Stage.events_of_same samePhase, List.nil_append, split, List.range_add,
        List.flatMap_append, quiet, List.nil_append, List.flatMap_map, reached]
      simp only [← Function.iterate_add_apply, Nat.add_comm]

theorem fillBlockEvents_eq (laws : ExpLaws R) {s : FofState R} (sound : s.Sound)
    (blockStart : Nat) (buf : List R) :
    s.fillBlockEvents blockStart buf =
      (List.range (buf.length - (s.params.startSample - blockStart))).flatMap
        (fun k => (sampleStep^[k] s).settleEvents) := by
  unfold fillBlockEvents
  split_ifs with dead
  · have quiet := phaseEnd_of_dead dead
    have fixed : ∀ k, sampleStep^[k] s = s := Function.iterate_fixed (sampleStep_of_dead quiet)
    have settled : s.settleStep = s := by simp only [settleStep, quiet]
    simp only [fixed, settleEvents_of_settled settled]
    simp
  · rw [fillLoopEvents_eq laws sound, List.length_drop]

/-! ## The log of a run -/

variable {clock : Nat} {buf : List R} {rest calls : List (GrainCall R)} {fadeDur : R}

theorem Governed.log_kill (ordered : c.attackEnd ≤ c.decayEnd)
    (governed : Governed c entry clock (.kill fadeDur :: rest) s) :
    s.stage.events (s.triggerFadeOut fadeDur).stage ++
        (life c entry).remaining (s.triggerFadeOut fadeDur).phase =
      (life c entry).remaining s.phase := by
  rcases governed with ⟨rising, leads⟩ | fading
  · have killed : entry = c.killedEntry (clock - c.params.startSample) fadeDur :=
      leads.trans (if_pos (rising.le_decayEnd ordered))
    subst killed
    have duration : fadeDur * s.sampleRate = fadeDur * c.sampleRate := by rw [rising.constants]
    rw [triggerFadeOut_of_heard rising.heard]
    rcases rising.phase with ⟨phase, early⟩ | ⟨phase, _, _⟩
    · refine Stage.events_killed phase rfl ?_ rising.t duration
      exact rising.t.trans (Nat.min_eq_right early).symm
    · exact Stage.events_enteredFadeOut phase rfl rising.t duration
  · rw [fading.trigger]
    exact Stage.events_quiet rfl

section Logs

variable [IsStrictOrderedRing R] (ordered : c.attackEnd ≤ c.decayEnd)
  (fits : entry.fadeoutEnd < 2 ^ 32)

include ordered fits

theorem Governed.log_block (laws : ExpLaws R) (sound : s.Sound)
    (governed : Governed c entry clock (.block buf :: rest) s) :
    s.fillBlockEvents clock buf ++ (life c entry).remaining (s.fillBlock clock buf).1.phase =
      (life c entry).remaining s.phase := by
  have params := governed.params
  have logged : ∀ m, clock - c.params.startSample + m ≤ clock + buf.length - c.params.startSample →
      (List.range m).flatMap (fun k => (sampleStep^[k] s).settleEvents) ++
          (life c entry).remaining (sampleStep^[m] s).phase =
        (life c entry).remaining s.phase := by
    intro m within
    induction m with
    | zero => rfl
    | succ m ih =>
        have active := governed.active ordered fits (k := m) (by omega)
        have samePhase : (sampleStep^[m] s).sampleStep.phase = (sampleStep^[m] s).settle.phase :=
          advanceOne_phase _
        rw [List.range_succ, List.flatMap_append, List.append_assoc, Function.iterate_succ_apply',
          List.flatMap_singleton, samePhase, active.onCourse.settle ordered fits]
        exact ih (by omega)
  have phase : (s.fillBlock clock buf).1.phase =
      (sampleStep^[buf.length - (c.params.startSample - clock)] s).phase := by
    rw [fillBlock_eq laws sound, params]
    split_ifs with dead
    · rw [Function.iterate_fixed (sampleStep_of_dead (phaseEnd_of_dead dead))]
    · rfl
  rw [fillBlockEvents_eq laws sound, params, phase]
  exact logged _ (by omega)

/-- The log of a run and the events that are still ahead make up one life.  By induction on
the calls. -/
theorem Governed.log (laws : ExpLaws R) (sound : s.Sound)
    (governed : Governed c entry clock calls s) :
    s.lifeEvents clock calls ++
          (life c entry).remaining (s.renderCalls clock calls).1.phase =
        (life c entry).remaining s.phase ∧
      Governed c entry (clock + (GrainCall.inputOf calls).length) []
        (s.renderCalls clock calls).1 := by
  induction calls generalizing s clock with
  | nil => exact ⟨rfl, governed⟩
  | cons call rest ih =>
      cases call with
      | kill fadeDur =>
          have later := ih (sound.triggerFadeOut fadeDur) (governed.kill ordered fits)
          rw [lifeEvents, renderCalls, List.append_assoc, later.1]
          exact ⟨governed.log_kill ordered, later.2⟩
      | block buf =>
          have later := ih (fillBlock_sound laws sound clock buf)
            (governed.block ordered fits laws sound).2
          have total : clock + (GrainCall.inputOf (.block buf :: rest)).length =
              clock + buf.length + (GrainCall.inputOf rest).length := by
            rw [Nat.add_assoc, ← List.length_append]
            rfl
          rw [lifeEvents, renderCalls, List.append_assoc, later.1, total]
          exact ⟨governed.log_block ordered fits laws sound, later.2⟩

end Logs

end FofState

end Grain
end Rfofs
