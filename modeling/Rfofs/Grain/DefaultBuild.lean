import Rfofs.Grain.Calls
import Rfofs.Grain.FastSin
import Rfofs.Grain.SinCycles

namespace Rfofs
namespace Grain

open Foundation

/-!
# The default build

A build decides which two sines a grain uses: one in the scalar formulas, one in the
lanes.  With `std-sin` they are the same function.  The default build looks the first one
up in a table and evaluates a polynomial for the second, so which of the two a sample
gets depends on where the block and the run that it lies in begin.

The functions of a grain are generic in the build.  `SineBuild.renderCalls` and the
functions beside it only say in which build they are read.  What a sine contributes to
the state of a grain is the level at which a kill enters the fade-out and nothing else,
so two builds run through the same phases, and their samples differ by what the two sines
differ by.
-/

variable {R : Type*} [Field R] [LinearOrder R]

/-! ## The functions of a grain in a build -/

namespace SineBuild

section Functions

variable (b : SineBuild R)

/-- The rise of the attack in the scalar formulas of the build. -/
def attackRiseAt (c : FofConstants R) (t : Nat) : R :=
  letI : Sines R := ⟨b⟩
  c.attackRiseAt t

/-- The rise of the attack in the lanes of the build. -/
def attackRiseChunk (c : FofConstants R) (t0 : Nat) : F32x8 R :=
  letI : Sines R := ⟨b⟩
  c.attackRiseChunk t0

def attackEnvelope (s : FofState R) : RunEnvelope R :=
  letI : Sines R := ⟨b⟩
  s.attackEnvelope

variable [RealOps R]

def processRun (s : FofState R) (gliss : Bool) (envelope : RunEnvelope R) (buf : List R) :
    List R × R :=
  letI : Sines R := ⟨b⟩
  s.processRun gliss envelope buf

def process (s : FofState R) (buf : List R) : List R × FofState R :=
  letI : Sines R := ⟨b⟩
  s.process buf

variable [FloorRing R]

def envelope (s : FofState R) : R :=
  letI : Sines R := ⟨b⟩
  s.envelope

def triggerFadeOut (s : FofState R) (fadeDur : R) : FofState R :=
  letI : Sines R := ⟨b⟩
  s.triggerFadeOut fadeDur

def fillLoop (s : FofState R) (buf : List R) : FofState R × List R :=
  letI : Sines R := ⟨b⟩
  s.fillLoop buf

def fillBlock (s : FofState R) (blockStart : Nat) (buf : List R) : FofState R × List R :=
  letI : Sines R := ⟨b⟩
  s.fillBlock blockStart buf

/-- Contiguous calls from `clock` on. -/
def renderCalls (s : FofState R) (clock : Nat) (calls : List (GrainCall R)) :
    FofState R × List R :=
  letI : Sines R := ⟨b⟩
  s.renderCalls clock calls

end Functions

/-! The turns of the loop, in any build. -/

section Turns

variable [FloorRing R] [RealOps R] (b : SineBuild R)

theorem fillLoop_nil (s : FofState R) : b.fillLoop s [] = (s, []) :=
  letI : Sines R := ⟨b⟩
  FofState.fillLoop_nil s

theorem fillLoop_dead {s : FofState R} (dead : s.phaseEnd = none) (buf : List R) :
    b.fillLoop s buf = (s, buf) :=
  letI : Sines R := ⟨b⟩
  FofState.fillLoop_dead dead buf

/-- A transition that is due is made first.  It does not depend on the build. -/
theorem fillLoop_due {s : FofState R} {phaseEnd : Nat} (alive : s.phaseEnd = some phaseEnd)
    (due : phaseEnd - s.t = 0) (x : R) (rest : List R) :
    b.fillLoop s (x :: rest) = b.fillLoop s.transitionPhase (x :: rest) :=
  letI : Sines R := ⟨b⟩
  FofState.fillLoop_due alive due x rest

/-- One turn of the loop renders a run of samples of one phase. -/
theorem fillLoop_run {s : FofState R} {phaseEnd : Nat} (alive : s.phaseEnd = some phaseEnd)
    (left : phaseEnd - s.t ≠ 0) (x : R) (rest : List R) :
    let runLen := min (phaseEnd - s.t) (x :: rest).length
    let run := b.process s ((x :: rest).take runLen)
    let later := b.fillLoop { run.2 with t := run.2.t + runLen } ((x :: rest).drop runLen)
    b.fillLoop s (x :: rest) = (later.1, run.1 ++ later.2) :=
  letI : Sines R := ⟨b⟩
  FofState.fillLoop_run alive left x rest

theorem fillBlock_alive {s : FofState R} (alive : s.phase ≠ .dead) (blockStart : Nat)
    (buf : List R) :
    b.fillBlock s blockStart buf =
      let filled := b.fillLoop s (buf.drop (s.params.startSample - blockStart))
      (filled.1.refresh, buf.take (s.params.startSample - blockStart) ++ filled.2) :=
  letI : Sines R := ⟨b⟩
  FofState.fillBlock_alive alive blockStart buf

end Turns

/-! What a build contributes to the rise of the attack. -/

omit [LinearOrder R] in
/-- The scalar rise is told by the scalar sine alone. -/
theorem attackRiseAt_eq (b : SineBuild R) (c : FofConstants R) (t : Nat) :
    b.attackRiseAt c t = 1 / 2 * (1 - b.activeSin ((t : R) * c.inv2beta + 1 / 4)) :=
  rfl

omit [LinearOrder R] in
/-- The rise in a lane is told by the sine of the lanes alone. -/
theorem attackRiseChunk_eq (b : SineBuild R) (c : FofConstants R) (t0 : Nat) (lane : Fin lanes) :
    b.attackRiseChunk c t0 lane = (1 - b.sinCyclesX8
      (F32x8.splat ((t0 : R) * c.inv2beta + 1 / 4) + iota * F32x8.splat c.inv2beta) lane) *
        (1 / 2) :=
  rfl

end SineBuild

/-! ## The build without `std-sin` -/

variable [FloorRing R]

/-- The scalar formulas look the sine `S` up, the lanes evaluate the polynomial. -/
def defaultBuild (S round : R → R) : SineBuild R where
  activeSin := fun phase => (fastSin S phase).getD 0
  sinCyclesX8 := polySinCyclesX8 round

theorem defaultBuild_activeSin (S round : R → R) (phase : R) :
    (defaultBuild S round).activeSin phase = (fastSin S phase).getD 0 := by
  unfold defaultBuild
  dsimp only

theorem defaultBuild_sinCyclesX8 (S round : R → R) (phase : F32x8 R) :
    (defaultBuild S round).sinCyclesX8 phase = polySinCyclesX8 round phase := by
  unfold defaultBuild
  dsimp only

variable [IsStrictOrderedRing R]

/-- A lookup reads the function at a point near the phase. -/
theorem fastSin_nearby {S : R → R} (periodic : Function.Periodic S 1) (phase : R) :
    ∃ point, fastSin S phase = some (S point) ∧
      |point - phase| ≤ 1 / (2 * (tableSize : R)) := by
  have nonzero : (tableSize : R) ≠ 0 := Nat.cast_ne_zero.mpr (by decide)
  refine ⟨(nearestIndex tableSize phase : R) / tableSize + (⌊phase⌋ : Int), ?_, ?_⟩
  · have turned := periodic.int_mul ⌊phase⌋ ((nearestIndex tableSize phase : R) / tableSize)
    rw [mul_one] at turned
    rw [fastSin_eq, periodic_div_mod periodic nonzero, turned]
  · have near := abs_fract_sub_nearest (show 0 < tableSize by decide) phase
    rw [abs_sub_comm] at near
    have moved : (nearestIndex tableSize phase : R) / tableSize + (⌊phase⌋ : Int) - phase =
        (nearestIndex tableSize phase : R) / tableSize - Int.fract phase := by
      rw [Int.fract]
      ring
    rw [moved]
    exact near

end Grain
end Rfofs
