import Rfofs.Engine.Session
import Rfofs.Grain.SampleMachine

namespace Rfofs
namespace Engine

open Foundation
open Grain
open Queue

/-!
# The block of an onset

A block `[blockStart, blockStart + D)` fires the slots that have elapsed by its end.
With slots as long as blocks these are the slots up to the one that contains
`blockStart`.  A request whose onset lies in the block is therefore fired in it when
its onset lies in the slot of `blockStart`, and one block late otherwise.

The phase between the grid of the blocks and the grid of the slots never changes in
a session, so the offsets that are on time are those below `D - clock % D`, where
`clock` is the clock at the beginning.
-/

/-! ## Two grids -/

variable {R : Type*}

section Counts

variable [DecidableEq R]

variable {g : Geometry} {consumer : TimeWheelConsumer R} {start : Session R}
  {engine : RfofsEngine R} {params : FofParams R}

end Counts

/-! ## Sessions -/

variable [Field R] [LinearOrder R] [FloorRing R] [RealOps R]

/-- Nothing is written before the index, and from the index on the grain renders
from its first sample. -/
def FirstSampleAt (grain : FofState R) (blockStart index : Nat) : Prop :=
  grain.t = 0 ∧ ∀ buf, (grain.fillBlock blockStart buf).2 =
    buf.take index ++ (grain.fillLoop (buf.drop index)).2

/-- The request is spawned in the block that began at `start`, as often as it was
pushed and not refused, and in no other block; and its first sample lands at the
offset of its onset, however often it is killed before the block is rendered. -/
structure OnTime (start next final : Session R) (params : FofParams R) : Prop where
  spawned : final.spawned.count (params, start.engine.sampleClock) +
    (rejectedFor .slotFull next.ledger.log).count params = start.ledger.pushed.count params
  only : ∀ entry ∈ final.spawned, entry.1 = params → entry.2 = start.engine.sampleClock
  onset : ∀ fades : List R, FirstSampleAt
    (fades.foldl FofState.triggerFadeOut (FofState.spawn params start.engine.sampleRate))
    start.engine.sampleClock (params.startSample - start.engine.sampleClock)

end Engine
end Rfofs
