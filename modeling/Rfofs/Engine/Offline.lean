import Rfofs.Engine.Session

namespace Rfofs
namespace Engine

open Foundation
open Grain
open Queue

/-!
# The offline renderer

The renderer owns an engine with one wheel and drives it by the onsets that are
submitted.  `addFof` pushes a request and renders blocks while the onset lies beyond
the end of the next one; `close` covers the last onset, renders one block more, and
then goes on while a grain is active, up to a limit.

The observer of `Session` stands in the place of the engine, and the sound file is
the list of samples written to it.  Nothing is ever pushed into the kill queue: its
producer is dropped when the renderer is opened.
-/

/-- Why a call panics: an onset out of order, a request that does not fit into the ring, or a
key that is missing from the pool. -/
inductive Panic where
  | notMonotonic
  | timeWheelFull
  | missingKey
  deriving DecidableEq, Repr

/-- What is fixed when a renderer is opened.  A block size of zero would never end. -/
structure OfflineConfig (R : Type*) where
  sampleRate : R
  blockSize : Nat
  nChannels : Nat
  blockSize_pos : 0 < blockSize

/-- The renderer drives a session and keeps the samples that were written. -/
structure OfflineRenderer (R : Type*) extends OfflineConfig R where
  session : Session R
  written : List R
  lastStartSample : Nat

/-- The wheel of the renderer: 256 slots of 256 samples, with room for 64 requests each. -/
def offlineGeometry : Geometry := ⟨256, 256, 64, by decide, by decide⟩

/-- Conversion to a word truncates and saturates. -/
def asUsize {R : Type*} [Field R] [LinearOrder R] [FloorRing R] (x : R) : Nat :=
  min ⌊x⌋.toNat (2 ^ 64 - 1)

namespace OfflineRenderer

variable {R : Type*}

/-- Open a renderer with an ingress ring of 4096 entries.  Its clock starts at zero. -/
def openFile (sampleRate : R) (panMode : PanMode) (blockSize : Nat)
    (blockSize_pos : 0 < blockSize) : OfflineRenderer R where
  sampleRate := sampleRate
  blockSize := blockSize
  nChannels := panMode.channelCount
  blockSize_pos := blockSize_pos
  session := Session.start sampleRate panMode (freshWheel 4096 offlineGeometry false) 256 0
  written := []
  lastStartSample := 0

def clock (r : OfflineRenderer R) : Nat := r.session.engine.sampleClock

variable [Field R] [LinearOrder R] [FloorRing R] [RealOps R]

/-- The samples of a block in the order of the file.  Frames come one after the other, with
all channels of a frame together. -/
def interleave (blockSize : Nat) (channelBufs : List (List R)) : List R :=
  (List.range blockSize).flatMap (fun s => channelBufs.map (fun buf => buf.getD s 0))

/-- Render one block into zeroed buffers and write it. -/
def processOneBlock (choice : KeyChoice) (r : OfflineRenderer R) :
    Except Panic (OfflineRenderer R) :=
  let channelBufs := List.replicate r.nChannels (List.replicate r.blockSize 0)
  match r.session.block choice channelBufs r.blockSize with
  | some (session, outputs) =>
      .ok { r with
        session := session
        written := r.written ++ interleave r.blockSize outputs }
  | none => .error .missingKey

theorem processOneBlock_clock {choice : KeyChoice} {r next : OfflineRenderer R}
    (processed : r.processOneBlock choice = .ok next) :
    next.clock = r.clock + r.blockSize ∧ next.toOfflineConfig = r.toOfflineConfig ∧
      next.lastStartSample = r.lastStartSample := by
  simp only [processOneBlock] at processed
  split at processed
  · rename_i session outputs blocked
    cases processed
    rcases Option.map_eq_some_iff.mp blocked with ⟨⟨engine, rendered⟩, rendering, recorded⟩
    cases recorded
    exact ⟨RfofsEngine.processBlock_clock rendering, rfl, rfl⟩
  · cases processed

/-- Render blocks while the next one ends before `bound`. -/
def advanceTo (choice : KeyChoice) (bound : Nat) (r : OfflineRenderer R) :
    Except Panic (OfflineRenderer R) :=
  if r.clock + r.blockSize < bound then
    match rendered : r.processOneBlock choice with
    | .ok next =>
        have := (processOneBlock_clock rendered).1
        have := r.blockSize_pos
        next.advanceTo choice bound
    | .error panic => .error panic
  else
    .ok r
termination_by bound - r.clock
decreasing_by omega

/-- The loop keeps what every block keeps.  It stops when the next block would reach the
bound, and it does not pass the bound unless it began there. -/
theorem advanceTo_invariant {choice : KeyChoice} {inv : OfflineRenderer R → Prop}
    (block : ∀ r, inv r → ∃ next, r.processOneBlock choice = .ok next ∧ inv next)
    (bound : Nat) {r : OfflineRenderer R} (start : inv r) :
    ∃ next, r.advanceTo choice bound = .ok next ∧ inv next ∧
      next.toOfflineConfig = r.toOfflineConfig ∧ next.lastStartSample = r.lastStartSample ∧
      bound ≤ next.clock + r.blockSize ∧ (next = r ∨ next.clock < bound) := by
  induction gap : bound - r.clock using Nat.strong_induction_on generalizing r with
  | _ gap ih =>
      rw [advanceTo]
      split
      · rename_i behind
        rcases block r start with ⟨middle, processed, kept⟩
        rcases processOneBlock_clock processed with ⟨clock, config, last⟩
        have positive := r.blockSize_pos
        rcases ih (bound - middle.clock) (by omega) kept rfl with
          ⟨next, ran, nextKept, nextConfig, nextLast, reached, within⟩
        refine ⟨next, ?_, nextKept, nextConfig.trans config, nextLast.trans last, ?_, Or.inr ?_⟩
        · split
          · rename_i other rendered
            rw [processed] at rendered
            cases rendered
            exact ran
          · rename_i panic rendered
            rw [processed] at rendered
            cases rendered
        · rwa [config] at reached
        · rcases within with rfl | before
          · omega
          · exact before
      · exact ⟨r, rfl, start, rfl, rfl, by omega, Or.inl rfl⟩

/-- Submit a grain: its onset must not lie before the last one.  It is pushed first, and then
blocks are rendered up to its onset. -/
def addFof (choice : KeyChoice) (r : OfflineRenderer R) (params : FofParams R) :
    Except Panic (OfflineRenderer R) :=
  if r.lastStartSample ≤ params.startSample then
    match r.session.push params with
    | some session =>
        (advanceTo choice params.startSample { r with session := session }).map
          (fun next => { next with lastStartSample := params.startSample })
    | none => .error .timeWheelFull
  else
    .error .notMonotonic

/-- The blocks that follow the last onset: at most so many, and only while a grain is
active. -/
def renderTail (choice : KeyChoice) : Nat → OfflineRenderer R → Except Panic (OfflineRenderer R)
  | 0, r => .ok r
  | extra + 1, r =>
      if r.session.engine.activeCount = 0 then
        .ok r
      else
        (r.processOneBlock choice).bind (renderTail choice extra)

/-- The tail keeps what every block keeps. -/
theorem renderTail_invariant {choice : KeyChoice} {inv : OfflineRenderer R → Prop}
    (block : ∀ r, inv r → ∃ next, r.processOneBlock choice = .ok next ∧ inv next)
    (extra : Nat) {r : OfflineRenderer R} (start : inv r) :
    ∃ next, r.renderTail choice extra = .ok next ∧ inv next := by
  induction extra generalizing r with
  | zero => exact ⟨r, rfl, start⟩
  | succ extra ih =>
      unfold renderTail
      split
      · exact ⟨r, rfl, start⟩
      · rcases block r start with ⟨middle, processed, kept⟩
        rw [processed]
        exact ih kept

/-- The limit of 30 seconds, in blocks.  The division truncates. -/
def maxExtra (c : OfflineConfig R) : Nat := asUsize c.sampleRate * 30 / c.blockSize

/-- Flush what is left.  The renderer is consumed; the result is for the observer. -/
def close (choice : KeyChoice) (r : OfflineRenderer R) : Except Panic (OfflineRenderer R) :=
  (r.advanceTo choice (r.lastStartSample + 1)).bind (fun covered =>
    (covered.processOneBlock choice).bind (fun drained =>
      drained.renderTail choice (maxExtra drained.toOfflineConfig)))

/-- Open a renderer, submit a list of grains and close it.  This is a whole run of the offline
program. -/
def renderAll (choice : KeyChoice) (sampleRate : R) (panMode : PanMode) (blockSize : Nat)
    (blockSize_pos : 0 < blockSize) (fofs : List (FofParams R)) :
    Except Panic (OfflineRenderer R) :=
  (fofs.foldlM (addFof choice) (openFile sampleRate panMode blockSize blockSize_pos)).bind
    (close choice)

end OfflineRenderer

end Engine
end Rfofs
