import Rfofs.Grain.SampleMachine

namespace Rfofs
namespace Grain

open Foundation

/-!
# Calls on a grain

The owner of a grain makes two kinds of call: it asks for the next block, or it
kills the grain.  Blocks are contiguous, so a call needs no position of its own;
`renderCalls` keeps the clock.

A block writes the displayed carrier fields once, at its end.  They feed nothing
else (`sampleStep_withCarrier`), so a block is the sample machine on the part of
the buffer that follows the onset (`fillBlock_eq`), and any way to cut a range into
blocks leaves the same samples and the same grain (`renderBlocks_eq`).
-/

/-- A call on a grain: a block that follows the one before, or a kill between two blocks. -/
inductive GrainCall (R : Type*) where
  | block (buf : List R)
  | kill (fadeDur : R)

namespace GrainCall

variable {R : Type*}

/-- The samples that a call is given. -/
def input : GrainCall R → List R
  | .block buf => buf
  | .kill _ => []

/-- The samples that a run of calls is given. -/
def inputOf (calls : List (GrainCall R)) : List R := calls.flatMap input

/-- The first kill of a list of calls, with the clock at which it arrives.  Later kills have
no effect. -/
def firstKill : Nat → List (GrainCall R) → Option (Nat × R)
  | _, [] => none
  | clock, .block buf :: rest => firstKill (clock + buf.length) rest
  | clock, .kill fadeDur :: _ => some (clock, fadeDur)

theorem firstKill_clock {clock : Nat} {calls : List (GrainCall R)} {t : Nat} {fadeDur : R}
    (found : firstKill clock calls = some (t, fadeDur)) : clock ≤ t := by
  induction calls generalizing clock with
  | nil => cases found
  | cons call rest ih =>
      cases call with
      | block buf => exact Nat.le_of_add_right_le (ih found)
      | kill other =>
          rw [firstKill, Option.some.injEq, Prod.mk.injEq] at found
          exact le_of_eq found.1

theorem firstKill_append_block (clock : Nat) (calls : List (GrainCall R)) (buf : List R) :
    firstKill clock (calls ++ [.block buf]) = firstKill clock calls := by
  induction calls generalizing clock with
  | nil => rfl
  | cons call rest ih =>
      cases call with
      | block other => exact ih (clock + other.length)
      | kill fadeDur => rfl

end GrainCall

/-! ## Runs of calls -/

namespace FofState

section Runs

variable {R : Type*}

def withCarrier (s : FofState R) (carrierPhase fCurrent : R) : FofState R :=
  { s with carrierPhase := carrierPhase, fCurrent := fCurrent }

variable [Zero R] [One R] [Add R] [Sub R] [Mul R] [Div R] [NatCast R] [Max R] [LT R]
  [DecidableLT R] [Pow R Int] [Conversions R] [RealOps R]

/-- The displayed carrier fields of a grain at its counter. -/
def refresh (s : FofState R) : FofState R :=
  s.withCarrier (wrapPhase (s.carrierPhaseAt s.hasGliss s.t))
    (if s.hasGliss then s.params.f * s.logFFactor ^ asI32 s.t else s.fCurrent)

omit [One R] [Div R] [DecidableLT R] in
theorem refresh_eq (s : FofState R) :
    s.refresh = s.withCarrier (wrapPhase (s.carrierPhaseAt s.hasGliss s.t))
      (if s.hasGliss then s.params.f * s.logFFactor ^ asI32 s.t else s.fCurrent) :=
  rfl

variable [Sines R]

/-- A block is its loop on the samples from the onset on, and the display at its end. -/
theorem fillBlock_alive {s : FofState R} (alive : s.phase ≠ .dead) (blockStart : Nat)
    (buf : List R) :
    s.fillBlock blockStart buf =
      let filled := s.fillLoop (buf.drop (s.params.startSample - blockStart))
      (filled.1.refresh, buf.take (s.params.startSample - blockStart) ++ filled.2) := by
  unfold fillBlock refresh withCarrier
  rw [if_neg alive]
  dsimp only
  cases (s.fillLoop (buf.drop (s.params.startSample - blockStart))).1.hasGliss <;> rfl

/-- Contiguous calls from `clock` on.  The samples of all blocks come out in one
list. -/
def renderCalls (s : FofState R) (clock : Nat) : List (GrainCall R) → FofState R × List R
  | [] => (s, [])
  | .block buf :: rest =>
      let filled := s.fillBlock clock buf
      let later := filled.1.renderCalls (clock + buf.length) rest
      (later.1, filled.2 ++ later.2)
  | .kill fadeDur :: rest => (s.triggerFadeOut fadeDur).renderCalls clock rest

end Runs

end FofState

/-! ## The displayed carrier -/

section Carrier

variable {R : Type*} [Field R]

namespace FofState

variable (s : FofState R) (carrierPhase fCurrent : R)

theorem advanceOne_withCarrier :
    (s.withCarrier carrierPhase fCurrent).advanceOne =
      s.advanceOne.withCarrier carrierPhase fCurrent := by
  cases phase : s.phase <;> simp only [advanceOne, withCarrier, phase]

variable [LinearOrder R] [FloorRing R]

theorem settleStep_withCarrier :
    (s.withCarrier carrierPhase fCurrent).settleStep =
      s.settleStep.withCarrier carrierPhase fCurrent := by
  cases alive : s.phaseEnd with
  | none =>
      have same : (s.withCarrier carrierPhase fCurrent).phaseEnd = none := alive
      simp only [settleStep, alive, same]
  | some phaseEnd =>
      have same : (s.withCarrier carrierPhase fCurrent).phaseEnd = some phaseEnd := alive
      by_cases due : phaseEnd ≤ s.t
      · rw [settleStep_of_due alive due, settleStep_of_due same due]
        cases phase : s.phase <;>
          simp only [transitionPhase, enterFadeOut, withCarrier, phase]
      · have inside : s.t < phaseEnd := Nat.lt_of_not_le due
        rw [settleStep_of_inside alive inside, settleStep_of_inside same inside]

theorem settle_withCarrier :
    (s.withCarrier carrierPhase fCurrent).settle =
      s.settle.withCarrier carrierPhase fCurrent := by
  simp only [settle, settleStep_withCarrier]

theorem sampleStep_withCarrier :
    (s.withCarrier carrierPhase fCurrent).sampleStep =
      s.sampleStep.withCarrier carrierPhase fCurrent := by
  rw [sampleStep, settle_withCarrier, advanceOne_withCarrier, ← sampleStep]

theorem iterate_sampleStep_withCarrier (k : Nat) :
    sampleStep^[k] (s.withCarrier carrierPhase fCurrent) =
      (sampleStep^[k] s).withCarrier carrierPhase fCurrent := by
  induction k with
  | zero => rfl
  | succ k ih =>
      rw [Function.iterate_succ_apply', ih, sampleStep_withCarrier, Function.iterate_succ_apply']

theorem sampleStep_constants : s.sampleStep.toFofConstants = s.toFofConstants := by
  rw [sampleStep, advanceOne_constants, settle_constants]

theorem iterate_sampleStep_constants (k : Nat) :
    (sampleStep^[k] s).toFofConstants = s.toFofConstants := by
  induction k with
  | zero => rfl
  | succ k ih => rw [Function.iterate_succ_apply', sampleStep_constants, ih]

/-- The machine leaves the displayed carrier alone. -/
theorem iterate_sampleStep_fCurrent (k : Nat) : (sampleStep^[k] s).fCurrent = s.fCurrent := by
  have same : s.withCarrier s.carrierPhase s.fCurrent = s := rfl
  have displayed := iterate_sampleStep_withCarrier s s.carrierPhase s.fCurrent k
  rw [same] at displayed
  rw [displayed, withCarrier]

theorem sampleValue_withCarrier [RealOps R] :
    (s.withCarrier carrierPhase fCurrent).sampleValue = s.sampleValue := by
  rw [sampleValue, settle_withCarrier]
  rfl

end FofState

end Carrier

/-! ## Blocks -/

theorem FofState.Sound.withCarrier {R : Type*} [Field R] [RealOps R] {s : FofState R}
    (sound : s.Sound) (carrierPhase fCurrent : R) :
    (s.withCarrier carrierPhase fCurrent).Sound :=
  ⟨sound.tables, sound.entered⟩

variable {R : Type*} [Field R] [LinearOrder R] [FloorRing R] [RealOps R]

namespace FofState

theorem refresh_withCarrier {s : FofState R} {carrierPhase fCurrent : R}
    (plain : s.hasGliss = false → fCurrent = s.fCurrent) :
    (s.withCarrier carrierPhase fCurrent).refresh = s.refresh := by
  cases path : s.hasGliss with
  | true => simp only [refresh, withCarrier, path, if_true]
  | false =>
      simp only [refresh, withCarrier, path, plain path, Bool.false_eq_true, if_false]

/-- Refreshing the display in between leaves no trace. -/
theorem iterate_sampleStep_refresh (s : FofState R) (k : Nat) :
    (sampleStep^[k] s.refresh).refresh = (sampleStep^[k] s).refresh := by
  rw [s.refresh_eq, iterate_sampleStep_withCarrier, refresh_withCarrier]
  intro plain
  have constants := congrArg FofConstants.hasGliss (iterate_sampleStep_constants s k)
  rw [plain] at constants
  rw [← constants, iterate_sampleStep_fCurrent, if_neg Bool.false_ne_true]

theorem sampleValue_refresh (s : FofState R) (k : Nat) :
    (sampleStep^[k] s.refresh).sampleValue = (sampleStep^[k] s).sampleValue := by
  rw [s.refresh_eq, iterate_sampleStep_withCarrier, sampleValue_withCarrier]

/-- Samples before the onset are left alone; from there on the block is the sample
machine. -/
theorem fillBlock_eq (laws : ExpLaws R) {s : FofState R} (sound : s.Sound) (blockStart : Nat)
    (buf : List R) :
    s.fillBlock blockStart buf =
      (if s.phase = .dead then s
        else (sampleStep^[buf.length - (s.params.startSample - blockStart)] s).refresh,
      buf.mapIdx (fun j x => x + if s.params.startSample - blockStart ≤ j
        then (sampleStep^[j - (s.params.startSample - blockStart)] s).sampleValue else 0)) := by
  by_cases dead : s.phase = .dead
  · have quiet := phaseEnd_of_dead dead
    have fixed : ∀ k, sampleStep^[k] s = s := Function.iterate_fixed (sampleStep_of_dead quiet)
    have untouched : buf.mapIdx (fun _ y => y) = buf := by
      rw [List.mapIdx_eq_zipIdx_map, List.zipIdx_map_fst]
    simp only [fillBlock, dead, if_true, fixed, sampleValue_of_dead quiet, ite_self, add_zero,
      untouched]
  · simp only [fillBlock, dead, if_false, fillLoop_eq laws sound, List.length_drop]
    rw [Prod.mk.injEq]
    constructor
    · unfold refresh withCarrier
      cases (sampleStep^[buf.length - (s.params.startSample - blockStart)] s).hasGliss <;>
        simp
    · apply List.ext_getElem
      · simp
        omega
      · intro j inside inBuf
        rw [List.length_mapIdx] at inBuf
        by_cases early : j < s.params.startSample - blockStart
        · rw [List.getElem_append_left (by rw [List.length_take]; omega), List.getElem_take,
            List.getElem_mapIdx, if_neg (by omega), add_zero]
        · have offset : (buf.take (s.params.startSample - blockStart)).length =
              s.params.startSample - blockStart := List.length_take_of_le (by omega)
          have shifted : s.params.startSample - blockStart +
              (j - (s.params.startSample - blockStart)) = j := by omega
          rw [List.getElem_append_right (by rw [offset]; omega), List.getElem_mapIdx,
            List.getElem_mapIdx, if_pos (by omega)]
          simp only [offset, List.getElem_drop, shifted]

theorem fillBlock_sound (laws : ExpLaws R) {s : FofState R} (sound : s.Sound) (blockStart : Nat)
    (buf : List R) : (s.fillBlock blockStart buf).1.Sound := by
  rw [fillBlock_eq laws sound]
  split
  · exact sound
  · exact (sound.iterate_sampleStep _).withCarrier _ _

/-! ## Cutting a range into blocks -/

/-- Two blocks in a row render what one long block renders. -/
theorem fillBlock_append (laws : ExpLaws R) {s : FofState R} (sound : s.Sound) (blockStart : Nat)
    (first second : List R) :
    s.fillBlock blockStart (first ++ second) =
      let filled := s.fillBlock blockStart first
      let later := filled.1.fillBlock (blockStart + first.length) second
      (later.1, filled.2 ++ later.2) := by
  have between := fillBlock_sound laws sound blockStart first
  by_cases dead : s.phase = .dead
  · simp only [fillBlock, dead, if_true]
  · simp only [fillBlock_eq laws between]
    simp only [fillBlock_eq laws sound, dead, if_false]
    generalize onset : s.params.startSample - blockStart = offset
    have constants : ∀ k, (sampleStep^[k] s).toFofConstants = s.toFofConstants :=
      s.iterate_sampleStep_constants
    have params : ∀ k, (sampleStep^[k] s).refresh.params = s.params :=
      fun k => congrArg FofConstants.params (constants k)
    simp only [params]
    have later : s.params.startSample - (blockStart + first.length) = offset - first.length := by
      omega
    rw [later, Prod.mk.injEq]
    constructor
    · have split : (first ++ second).length - offset =
          second.length - (offset - first.length) + (first.length - offset) := by
        rw [List.length_append]
        omega
      rw [split, Function.iterate_add_apply]
      split_ifs with ended
      · have fixed := Function.iterate_fixed (sampleStep_of_dead (phaseEnd_of_dead
          (s := sampleStep^[first.length - offset] s) ended))
        exact congrArg refresh (fixed _)
      · exact (iterate_sampleStep_refresh _ _).symm
    · rw [List.mapIdx_append]
      congr 1
      apply List.mapIdx_eq_mapIdx_iff.mpr
      intro j _
      by_cases started : offset - first.length ≤ j
      · have position : j + first.length - offset =
            j - (offset - first.length) + (first.length - offset) := by omega
        rw [if_pos (by omega), if_pos started, position, Function.iterate_add_apply,
          sampleValue_refresh]
      · rw [if_neg (by omega), if_neg started]

/-- Contiguous blocks leave the same samples and the same grain as one block. -/
theorem renderBlocks_eq (laws : ExpLaws R) {s : FofState R} (sound : s.Sound) (clock : Nat)
    (first : List R) (blocks : List (List R)) :
    s.renderCalls clock ((first :: blocks).map .block) =
      s.fillBlock clock (first :: blocks).flatten := by
  induction blocks generalizing s clock first with
  | nil => simp only [List.map_cons, List.map_nil, renderCalls, List.flatten_cons,
      List.flatten_nil, List.append_nil]
  | cons second blocks ih =>
      have later := ih (fillBlock_sound laws sound clock first) (clock + first.length) second
      rw [List.flatten_cons, fillBlock_append laws sound]
      simp only [← later]
      rw [List.map_cons, renderCalls]

/-- Two ways to cut one range into blocks cannot be told apart afterwards. -/
theorem partition_invisible (laws : ExpLaws R) {s : FofState R} (sound : s.Sound) (clock : Nat)
    {blocks others : List (List R)} (proper : ∀ buf ∈ blocks, buf ≠ [])
    (properOthers : ∀ buf ∈ others, buf ≠ []) (same : blocks.flatten = others.flatten) :
    s.renderCalls clock (blocks.map .block) = s.renderCalls clock (others.map .block) := by
  have empty : ∀ list : List (List R), (∀ buf ∈ list, buf ≠ []) → list.flatten = [] → list = [] := by
    intro list proper flat
    cases list with
    | nil => rfl
    | cons buf rest =>
        have first : buf = [] := (List.append_eq_nil_iff.mp flat).1
        exact absurd first (proper buf (List.mem_cons_self ..))
  cases blocks with
  | nil => rw [empty others properOthers same.symm]
  | cons first rest =>
      cases others with
      | nil => rw [empty (first :: rest) proper same]
      | cons first' rest' =>
          rw [renderBlocks_eq laws sound, renderBlocks_eq laws sound, same]

end FofState

end Grain
end Rfofs
