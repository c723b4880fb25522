import Rfofs.Grain.Lifetime

namespace Rfofs
namespace Grain

/-!
# Grains in other places

A grain carries its position to the panning and never reads it: moved elsewhere it starts,
fades and dies in the same samples, and renders the same block before it is panned.
-/

variable {R : Type*}

/-- Where each grain is moved.  The new place may depend on everything that the request says. -/
structure Placement (R : Type*) where
  azm : FofParams R → R
  elev : FofParams R → R
  distance : FofParams R → R

namespace Placement

/-- A request in its new place; nothing else is changed. -/
def params (move : Placement R) (p : FofParams R) : FofParams R :=
  { p with azm := move.azm p, elev := move.elev p, distance := move.distance p }

/-- An active grain in its new place. -/
def grain (move : Placement R) (s : FofState R) : FofState R :=
  { s with params := move.params s.params }

section Rendering

variable [Field R] [LinearOrder R] [FloorRing R] [RealOps R] (move : Placement R)

/-- Moving a request is moving the grain that it is promoted to. -/
theorem spawn_params (p : FofParams R) (sampleRate : R) :
    FofState.spawn (move.params p) sampleRate = move.grain (FofState.spawn p sampleRate) := rfl

theorem triggerFadeOut_grain (s : FofState R) (fadeDur : R) :
    (move.grain s).triggerFadeOut fadeDur = move.grain (s.triggerFadeOut fadeDur) := by
  have envelope : (move.grain s).envelope = s.envelope := rfl
  have phase : (move.grain s).phase = s.phase := rfl
  unfold FofState.triggerFadeOut
  rw [envelope, phase]
  split <;> rfl

omit [FloorRing R] in
/-- A run renders the same samples in the new place. -/
theorem process_grain (s : FofState R) (buf : List R) :
    (move.grain s).process buf = ((s.process buf).1, move.grain (s.process buf).2) := by
  have same : (move.grain s).phase = s.phase := rfl
  have gliss : (move.grain s).hasGliss = s.hasGliss := rfl
  cases phase : s.phase with
  | attack =>
      simp only [FofState.process, same, phase, FofState.processAttack, gliss]
      split <;> rfl
  | decay =>
      simp only [FofState.process, same, phase, FofState.processDecay, gliss]
      split <;> rfl
  | fadeOut =>
      simp only [FofState.process, same, phase, FofState.processFadeout, gliss]
      split <;> rfl
  | dead => simp only [FofState.process, same, phase]

omit [RealOps R] in
theorem transitionPhase_grain (s : FofState R) :
    (move.grain s).transitionPhase = move.grain s.transitionPhase := by
  have same : (move.grain s).phase = s.phase := rfl
  unfold FofState.transitionPhase
  rw [same]
  cases s.phase <;> rfl

/-- The loop makes the same turns in the new place. -/
theorem fillLoop_grain (s : FofState R) (buf : List R) :
    (move.grain s).fillLoop buf = (move.grain (s.fillLoop buf).1, (s.fillLoop buf).2) := by
  fun_induction FofState.fillLoop s buf with
  | case1 s => rw [FofState.fillLoop]
  | case2 s x rest dead =>
      rw [FofState.fillLoop]
      split
      · rfl
      · rename_i found
        exact absurd (dead.symm.trans found) (by rintro ⟨⟩)
  | case3 s x rest phaseEnd alive remaining spent lower ih =>
      rw [FofState.fillLoop]
      split
      · rename_i none
        exact absurd (alive.symm.trans none) (by rintro ⟨⟩)
      · rename_i other found
        have same : phaseEnd = other := Option.some.inj (alive.symm.trans found)
        subst same
        rw [if_pos (show phaseEnd - (move.grain s).t = 0 from spent), transitionPhase_grain]
        exact ih
  | case4 s x rest phaseEnd alive remaining left runLen run later ih =>
      rw [FofState.fillLoop]
      split
      · rename_i none
        exact absurd (alive.symm.trans none) (by rintro ⟨⟩)
      · rename_i other found
        have same : phaseEnd = other := Option.some.inj (alive.symm.trans found)
        subst same
        rw [if_neg (show ¬ phaseEnd - (move.grain s).t = 0 from left)]
        dsimp only
        rw [process_grain]
        change (((move.grain { run.2 with t := run.2.t + runLen }).fillLoop
            ((x :: rest).drop runLen)).1,
          run.1 ++ ((move.grain { run.2 with t := run.2.t + runLen }).fillLoop
            ((x :: rest).drop runLen)).2) = _
        rw [ih]

/-- A block is the same in the new place.  The place acts on the gains only. -/
theorem fillBlock_grain (s : FofState R) (blockStart : Nat) (buf : List R) :
    (move.grain s).fillBlock blockStart buf =
      (move.grain (s.fillBlock blockStart buf).1, (s.fillBlock blockStart buf).2) := by
  have phase : (move.grain s).phase = s.phase := rfl
  have start : (move.grain s).params.startSample = s.params.startSample := rfl
  unfold FofState.fillBlock
  rw [phase, start]
  by_cases dead : s.phase = .dead
  · rw [if_pos dead, if_pos dead]
  · rw [if_neg dead, if_neg dead]
    dsimp only
    rw [fillLoop_grain]
    refine Prod.ext ?_ rfl
    dsimp only
    have gliss : ∀ s' : FofState R, (move.grain s').hasGliss = s'.hasGliss := fun _ => rfl
    rw [gliss]
    split <;> rfl

end Rendering

end Placement

end Grain
end Rfofs
