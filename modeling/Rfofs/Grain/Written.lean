import Rfofs.Grain.FadeEntry

namespace Rfofs
namespace Grain

open Foundation

/-!
# What a run writes

A loop adds one product to every sample that it is handed: an envelope, a sine and the
amplitude.  A chunk groups the product in another way than the tail does, which makes a
difference where products are rounded.

`written` lists what the calls of a run add, sample by sample, with `none` for a sample
that no loop is handed.  The samples that come out are the samples that went in, with
exactly this added to them (`renderCalls_written`), whatever the arithmetic is.
-/

variable {R : Type*}

/-- What a loop adds to a sample.  `fused` tells a lane of a chunk from a sample of the
tail. -/
structure Contribution (R : Type*) where
  env : R
  sine : R
  fused : Bool

/-- The sample with the contribution added, grouped as the loop groups it. -/
def Contribution.addTo [Add R] [Mul R] (ampTotal : R) (contribution : Contribution R) (x : R) : R :=
  if contribution.fused then
    contribution.env * contribution.sine * ampTotal + x
  else
    x + ampTotal * contribution.env * contribution.sine

/-- A sample after a run: untouched, or with a contribution added. -/
def write [Add R] [Mul R] (ampTotal : R) : Option (Contribution R) → R → R
  | none, x => x
  | some contribution, x => contribution.addTo ampTotal x

/-- Samples that nobody writes. -/
theorem zipWith_write_none [Add R] [Mul R] (ampTotal : R) (buf : List R) :
    List.zipWith (write ampTotal) (List.replicate buf.length none) buf = buf := by
  induction buf with
  | nil => rfl
  | cons x rest ih => exact congrArg (x :: ·) ih

/-- Samples that are all written. -/
theorem zipWith_write_some [Add R] [Mul R] (ampTotal : R) (contributions : List (Contribution R))
    (buf : List R) :
    List.zipWith (write ampTotal) (contributions.map some) buf =
      List.zipWith (Contribution.addTo ampTotal) contributions buf := by
  rw [List.zipWith_map_left]
  rfl

variable [Zero R] [One R] [Add R] [Sub R] [Mul R] [Div R] [NatCast R] [Max R] [LT R]
  [DecidableLT R] [RealOps R] [Sines R]

namespace FofState

/-! ## One phase -/

/-- What the loop of a phase adds to its slice. -/
def runWritten (s : FofState R) (gliss : Bool) (envelope : RunEnvelope R) (buf : List R) :
    List (Contribution R) :=
  (laneLoop lanes lanes_pos
    (fun acc idx (_ : List R) => List.ofFn fun lane : Fin lanes =>
      { env := envelope.chunk acc (s.t + idx) lane
        sine := s.carrierSineChunk gliss (s.t + idx) lane
        fused := true })
    envelope.stride
    (fun acc idx (_ : R) =>
      { env := envelope.sample acc (s.t + idx)
        sine := s.carrierSineAt gliss (s.t + idx)
        fused := false })
    envelope.next s.decayAcc 0 buf).1

def processWritten (s : FofState R) (buf : List R) : List (Contribution R) :=
  match s.phase with
  | .attack => s.runWritten s.hasGliss s.attackEnvelope buf
  | .decay => s.runWritten s.hasGliss s.decayEnvelope buf
  | .fadeOut => s.runWritten s.hasGliss s.fadeoutEnvelope buf
  | .dead => []

omit [Zero R] [One R] [Sub R] [Div R] [Max R] [LT R] [DecidableLT R] in
theorem runWritten_length (s : FofState R) (gliss : Bool) (envelope : RunEnvelope R)
    (buf : List R) : (s.runWritten gliss envelope buf).length = buf.length :=
  laneLoop_length _ (fun _ _ _ => List.length_ofFn) _ _ _ _ _ _

omit [One R] [Sub R] [Div R] [Max R] [LT R] [DecidableLT R] in
/-- The loop of a phase adds its contributions and does nothing else to the samples.  This is
proved of the loop itself. -/
theorem processRun_written (s : FofState R) (gliss : Bool) (envelope : RunEnvelope R)
    (buf : List R) :
    (s.processRun gliss envelope buf).1 =
      List.zipWith (Contribution.addTo s.ampTotal) (s.runWritten gliss envelope buf) buf := by
  apply laneLoop_zipWith
  · intro acc idx
    exact List.length_ofFn
  · intro acc idx slice full
    apply List.ext_getElem
    · simp [F32x8.toArray, full]
    · intro k inside _
      have bound : k < lanes := by simpa [F32x8.toArray] using inside
      have inSlice : k < slice.length := by rw [full]; exact bound
      simp only [F32x8.toArray, List.getElem_ofFn, List.getElem_zipWith, F32x8.mulAdd,
        Pi.add_apply, Pi.mul_apply, F32x8.splat, F32x8.ofSlice,
        List.getD_eq_getElem _ _ inSlice, Contribution.addTo, if_true]
  · intro acc idx x
    rfl

/-- A grain that is alive adds a contribution to every sample of its slice. -/
theorem process_written {s : FofState R} {phaseEnd : Nat} (alive : s.phaseEnd = some phaseEnd)
    (buf : List R) :
    (s.process buf).1 =
        List.zipWith (Contribution.addTo s.ampTotal) (s.processWritten buf) buf ∧
      (s.processWritten buf).length = buf.length := by
  have dispatch : ∀ f : Bool → List R × FofState R,
      (if s.hasGliss then f true else f false) = f s.hasGliss := by
    intro f
    cases s.hasGliss <;> rfl
  unfold process processWritten
  cases phase : s.phase with
  | attack =>
      rw [processAttack, dispatch (fun gliss => s.processAttackImpl gliss buf)]
      exact ⟨s.processRun_written _ _ buf, s.runWritten_length _ _ buf⟩
  | decay =>
      rw [processDecay, dispatch (fun gliss => s.processDecayImpl gliss buf)]
      exact ⟨s.processRun_written _ _ buf, s.runWritten_length _ _ buf⟩
  | fadeOut =>
      rw [processFadeout, dispatch (fun gliss => s.processFadeoutImpl gliss buf)]
      exact ⟨s.processRun_written _ _ buf, s.runWritten_length _ _ buf⟩
  | dead =>
      rw [FofState.phaseEnd, phase] at alive
      cases alive

/-! ## The loop of a block -/

variable [Pow R Int] [Conversions R]

/-- What the loop adds to the rest of a block.  Samples behind the death of the grain have no
contribution. -/
def fillLoopWritten (s : FofState R) (buf : List R) : List (Option (Contribution R)) :=
  match buf with
  | [] => []
  | x :: rest =>
      match alive : s.phaseEnd with
      | none => List.replicate (x :: rest).length none
      | some phaseEnd =>
          let remaining := phaseEnd - s.t
          if remaining = 0 then
            have := transitionPhase_rank alive
            s.transitionPhase.fillLoopWritten (x :: rest)
          else
            let runLen := min remaining (x :: rest).length
            let run := s.process ((x :: rest).take runLen)
            (s.processWritten ((x :: rest).take runLen)).map some ++
              fillLoopWritten { run.2 with t := run.2.t + runLen } ((x :: rest).drop runLen)
termination_by 4 * buf.length + s.phase.rank
decreasing_by
  · omega
  · exact run_measure (by assumption) run.2.phase s.phase x rest

def fillBlockWritten (s : FofState R) (blockStart : Nat) (buf : List R) :
    List (Option (Contribution R)) :=
  if s.phase = .dead then
    List.replicate buf.length none
  else
    let startOffset := s.params.startSample - blockStart
    List.replicate (buf.take startOffset).length none ++ s.fillLoopWritten (buf.drop startOffset)

/-- What a run of calls adds to the samples of its blocks. -/
def written (s : FofState R) (clock : Nat) : List (GrainCall R) → List (Option (Contribution R))
  | [] => []
  | .block buf :: rest =>
      s.fillBlockWritten clock buf ++
        (s.fillBlock clock buf).1.written (clock + buf.length) rest
  | .kill fadeDur :: rest => (s.triggerFadeOut fadeDur).written clock rest

theorem fillLoopWritten_due {s : FofState R} {phaseEnd : Nat} (alive : s.phaseEnd = some phaseEnd)
    (due : phaseEnd - s.t = 0) (x : R) (rest : List R) :
    s.fillLoopWritten (x :: rest) = s.transitionPhase.fillLoopWritten (x :: rest) := by
  conv_lhs => unfold fillLoopWritten
  split
  · rename_i dead
    rw [alive] at dead
    cases dead
  · rename_i other same
    rw [alive, Option.some.injEq] at same
    subst same
    exact if_pos due

theorem fillLoopWritten_run {s : FofState R} {phaseEnd : Nat} (alive : s.phaseEnd = some phaseEnd)
    (left : ¬ phaseEnd - s.t = 0) (x : R) (rest : List R) :
    s.fillLoopWritten (x :: rest) =
      let runLen := min (phaseEnd - s.t) (x :: rest).length
      let run := s.process ((x :: rest).take runLen)
      (s.processWritten ((x :: rest).take runLen)).map some ++
        fillLoopWritten { run.2 with t := run.2.t + runLen } ((x :: rest).drop runLen) := by
  conv_lhs => unfold fillLoopWritten
  split
  · rename_i dead
    rw [alive] at dead
    cases dead
  · rename_i other same
    rw [alive, Option.some.injEq] at same
    subst same
    exact if_neg left

theorem fillLoopWritten_dead {s : FofState R} (dead : s.phaseEnd = none) (buf : List R) :
    s.fillLoopWritten buf = List.replicate buf.length none := by
  unfold fillLoopWritten
  cases buf with
  | nil => rfl
  | cons x rest =>
      dsimp only
      split
      · rfl
      · rename_i phaseEnd alive
        rw [dead] at alive
        cases alive

/-- The loop adds its contributions and does nothing else to the samples. -/
theorem fillLoop_written (s : FofState R) (buf : List R) :
    (s.fillLoop buf).2 = List.zipWith (write s.ampTotal) (s.fillLoopWritten buf) buf ∧
      (s.fillLoopWritten buf).length = buf.length := by
  fun_induction fillLoop s buf with
  | case1 s =>
      rw [fillLoopWritten]
      exact ⟨rfl, rfl⟩
  | case2 s x rest dead =>
      rw [fillLoopWritten_dead dead]
      exact ⟨(zipWith_write_none s.ampTotal _).symm, List.length_replicate⟩
  | case3 s x rest phaseEnd alive remaining spent lower ih =>
      rw [transitionPhase_constants] at ih
      rw [fillLoopWritten_due alive spent]
      exact ih
  | case4 s x rest phaseEnd alive remaining left runLen run later ih =>
      have amp : run.2.ampTotal = s.ampTotal :=
        congrArg FofConstants.ampTotal (s.process_constants _)
      rcases process_written alive ((x :: rest).take runLen) with ⟨rendered, length⟩
      rcases ih with ⟨resumed, lengthLater⟩
      rw [fillLoopWritten_run alive left]
      constructor
      · dsimp only
        rw [zipWith_halves _ _ (by rw [List.length_map, length]), zipWith_write_some, ← rendered]
        rw [resumed]
        change _ ++ List.zipWith (write run.2.ampTotal) _ _ = _
        rw [amp]
      · rw [List.length_append, List.length_map, length, lengthLater, ← List.length_append,
          List.take_append_drop]

theorem fillBlock_written (s : FofState R) (blockStart : Nat) (buf : List R) :
    (s.fillBlock blockStart buf).2 =
        List.zipWith (write s.ampTotal) (s.fillBlockWritten blockStart buf) buf ∧
      (s.fillBlockWritten blockStart buf).length = buf.length := by
  unfold fillBlockWritten
  by_cases dead : s.phase = .dead
  · have silent : s.fillBlock blockStart buf = (s, buf) := if_pos dead
    rw [if_pos dead, silent]
    exact ⟨(zipWith_write_none s.ampTotal buf).symm, List.length_replicate⟩
  · rw [if_neg dead, fillBlock_alive dead]
    dsimp only
    rcases s.fillLoop_written (buf.drop (s.params.startSample - blockStart)) with
      ⟨rendered, length⟩
    constructor
    · rw [zipWith_halves _ _ List.length_replicate, zipWith_write_none, rendered]
    · rw [List.length_append, List.length_replicate, length, ← List.length_append,
        List.take_append_drop]

/-- A block is filled in place. -/
theorem fillBlock_length (s : FofState R) (blockStart : Nat) (buf : List R) :
    (s.fillBlock blockStart buf).2.length = buf.length := by
  rcases s.fillBlock_written blockStart buf with ⟨rendered, length⟩
  rw [rendered, List.length_zipWith, length, Nat.min_self]

/-- A run of calls adds what it writes, and does nothing else to the samples. -/
theorem renderCalls_written (s : FofState R) (clock : Nat) (calls : List (GrainCall R)) :
    (s.renderCalls clock calls).2 =
      List.zipWith (write s.ampTotal) (s.written clock calls) (GrainCall.inputOf calls) := by
  induction calls generalizing s clock with
  | nil => rfl
  | cons call rest ih =>
      cases call with
      | block buf =>
          have input : GrainCall.inputOf (.block buf :: rest) = buf ++ GrainCall.inputOf rest := rfl
          have amp : (s.fillBlock clock buf).1.ampTotal = s.ampTotal :=
            congrArg FofConstants.ampTotal (s.fillBlock_constants clock buf)
          rcases s.fillBlock_written clock buf with ⟨rendered, length⟩
          rw [renderCalls, written, input, List.zipWith_append length, ← rendered, ih, amp]
      | kill fadeDur =>
          have amp : (s.triggerFadeOut fadeDur).ampTotal = s.ampTotal :=
            congrArg FofConstants.ampTotal (s.triggerFadeOut_constants fadeDur)
          rw [renderCalls, written, ih, amp]
          rfl

end FofState

end Grain
end Rfofs
