import Rfofs.Foundation.Frames

namespace Rfofs
namespace Probe

open Foundation

/-!
# The writer of the probe

The writer takes one sample after the other out of the ring.  It derives the channel of a
sample from the number of samples before it, adds its square to the sum of the channel,
and copies it into a chunk that is written to the file whenever it is full.

The samples are `f32` and the sums `f64`; here they are two types and a conversion, and
the squares are added in the order in which the writer adds them, so the results hold for
an addition that rounds.  The counters are the `u64` counters of the source without their
bound.
-/

/-- The number of ports, the capacity of the ring, and whether a file is written.  The
command line refuses a count of zero. -/
structure ProbeConfig where
  nChannels : Nat
  ringCapacity : Nat
  output : Bool
  nChannels_pos : 0 < nChannels

/-- The chunk holds 4096 frames. -/
def ProbeConfig.chunkSize (config : ProbeConfig) : Nat := config.nChannels * 4096

theorem ProbeConfig.chunkSize_pos (config : ProbeConfig) : 0 < config.chunkSize :=
  Nat.mul_pos config.nChannels_pos (by decide)

/-- The local variables of the writer; the file is the list of samples written to it. -/
structure Writer (n : Nat) (X Y : Type*) where
  snd : Option (List X)
  sumSq : Fin n → Y
  frameCount : Nat
  totalSamples : Nat
  chunk : List X
  chunkLen : Nat

/-- The squares of samples, added from the first to the last.  The order matters where the
additions round. -/
def sumOfSquares {X Y : Type*} [Zero Y] [Add Y] [Mul Y] (asF64 : X → Y) (samples : List X) : Y :=
  samples.foldl (fun sum sample => sum + asF64 sample * asF64 sample) 0

variable {X Y : Type*}

namespace Writer

/-- A file with these samples, if one was asked for. -/
def file (output : Bool) (written : List X) : Option (List X) :=
  if output then some written else none

/-- An open file grows at its end. -/
def writeFromSlice (snd : Option (List X)) (slice : List X) : Option (List X) :=
  snd.map (fun written => written ++ slice)

def start [Zero X] [Zero Y] (config : ProbeConfig) : Writer config.nChannels X Y where
  snd := file config.output []
  sumSq := fun _ => 0
  frameCount := 0
  totalSamples := 0
  chunk := List.replicate config.chunkSize 0
  chunkLen := 0

/-- One sample has been popped.  The chunk is written when it is full, and the frame counted
when it is complete. -/
def takeSample [Add Y] [Mul Y] (config : ProbeConfig) (asF64 : X → Y)
    (w : Writer config.nChannels X Y) (sample : X) : Writer config.nChannels X Y :=
  let ch : Fin config.nChannels :=
    ⟨w.totalSamples % config.nChannels, Nat.mod_lt _ config.nChannels_pos⟩
  let chunk := w.chunk.set w.chunkLen sample
  let full := w.chunkLen + 1 = chunk.length
  { snd := if full then writeFromSlice w.snd chunk else w.snd
    sumSq := Function.update w.sumSq ch (w.sumSq ch + asF64 sample * asF64 sample)
    frameCount := if ch.val = config.nChannels - 1 then w.frameCount + 1 else w.frameCount
    totalSamples := w.totalSamples + 1
    chunk := chunk
    chunkLen := if full then 0 else w.chunkLen + 1 }

/-- Write what the chunk still holds. -/
def finish {n : Nat} (w : Writer n X Y) : Writer n X Y :=
  if 0 < w.chunkLen then
    { w with snd := writeFromSlice w.snd (w.chunk.take w.chunkLen) }
  else
    w

theorem writeFromSlice_file (output : Bool) (written slice : List X) :
    writeFromSlice (file output written) slice = file output (written ++ slice) := by
  cases output <;> rfl

@[simp] theorem finish_sumSq {n : Nat} (w : Writer n X Y) : w.finish.sumSq = w.sumSq := by
  unfold finish
  split <;> rfl

@[simp] theorem finish_frameCount {n : Nat} (w : Writer n X Y) :
    w.finish.frameCount = w.frameCount := by
  unfold finish
  split <;> rfl

end Writer

/-! ## What the writer has heard -/

/-- The variables of the writer after it has taken some samples.  All of them are functions of
these samples. -/
structure Heard [Zero Y] [Add Y] [Mul Y] (config : ProbeConfig) (asF64 : X → Y)
    (samples : List X) (w : Writer config.nChannels X Y) : Prop where
  totalSamples : w.totalSamples = samples.length
  frameCount : w.frameCount = samples.length / config.nChannels
  sumSq : ∀ ch, w.sumSq ch = sumOfSquares asF64 (lane config.nChannels ch.val samples)
  chunk_length : w.chunk.length = config.chunkSize
  chunkLen_lt : w.chunkLen < config.chunkSize
  written : ∃ written, w.snd = Writer.file config.output written ∧
    written ++ w.chunk.take w.chunkLen = samples

namespace Heard

theorem start [Zero X] [Zero Y] [Add Y] [Mul Y] (config : ProbeConfig) (asF64 : X → Y) :
    Heard config asF64 [] (Writer.start config) where
  totalSamples := rfl
  frameCount := (Nat.zero_div _).symm
  sumSq := fun _ => rfl
  chunk_length := List.length_replicate
  chunkLen_lt := config.chunkSize_pos
  written := ⟨[], rfl, rfl⟩

/-- Filling the next place of a chunk appends to what it holds. -/
theorem take_set_succ {chunk : List X} {k : Nat} (inside : k < chunk.length) (sample : X) :
    (chunk.set k sample).take (k + 1) = chunk.take k ++ [sample] := by
  rw [List.take_add_one, List.take_set_of_le (Nat.le_refl k), List.getElem?_set_self inside]
  rfl

/-- A frame is complete with the sample of its last channel. -/
theorem succ_div_eq {n : Nat} (positive : 0 < n) (k : Nat) :
    (k + 1) / n = if k % n = n - 1 then k / n + 1 else k / n := by
  rcases n with _ | m
  · exact absurd positive (Nat.lt_irrefl 0)
  · have turn : m + 1 ∣ k + 1 ↔ k % (m + 1) = m + 1 - 1 := by
      rw [Nat.dvd_iff_mod_eq_zero, Nat.succ_mod_succ_eq_zero_iff, Nat.add_sub_cancel]
    simp only [Nat.succ_div, turn]
    split <;> rfl

variable [Zero Y] [Add Y] [Mul Y] {config : ProbeConfig} {asF64 : X → Y} {samples : List X}
  {w : Writer config.nChannels X Y}

/-- The square goes to the channel whose turn it is. -/
theorem addSquare (heard : Heard config asF64 samples w) (sample : X) (ch : Fin config.nChannels) :
    (w.takeSample config asF64 sample).sumSq ch =
      sumOfSquares asF64 (lane config.nChannels ch.val (samples ++ [sample])) := by
  have count := heard.totalSamples
  simp only [Writer.takeSample]
  rw [lane_concat, ← count]
  by_cases turn : w.totalSamples % config.nChannels = ch.val
  · have same : ch = ⟨w.totalSamples % config.nChannels, Nat.mod_lt _ config.nChannels_pos⟩ :=
      Fin.ext turn.symm
    rw [if_pos turn, ← same, Function.update_self, heard.sumSq, sumOfSquares, sumOfSquares,
      List.foldl_append]
    rfl
  · have other : ch ≠ ⟨w.totalSamples % config.nChannels, Nat.mod_lt _ config.nChannels_pos⟩ :=
      fun same => turn (congrArg Fin.val same).symm
    rw [if_neg turn, Function.update_of_ne other, heard.sumSq, List.append_nil]

theorem takeSample (heard : Heard config asF64 samples w) (sample : X) :
    Heard config asF64 (samples ++ [sample]) (w.takeSample config asF64 sample) := by
  have size : (w.chunk.set w.chunkLen sample).length = config.chunkSize := by
    rw [List.length_set, heard.chunk_length]
  have inside : w.chunkLen < w.chunk.length := by
    rw [heard.chunk_length]
    exact heard.chunkLen_lt
  rcases heard.written with ⟨written, opened, split⟩
  have grown : written ++ (w.chunk.set w.chunkLen sample).take (w.chunkLen + 1) =
      samples ++ [sample] := by
    rw [take_set_succ inside, ← List.append_assoc, split]
  refine ⟨?_, ?_, ?_, size, ?_, ?_⟩
  · rw [List.length_append]
    exact congrArg (· + 1) heard.totalSamples
  · rw [List.length_append, List.length_singleton, succ_div_eq config.nChannels_pos,
      ← heard.frameCount, ← heard.totalSamples]
    rfl
  · exact heard.addSquare sample
  · simp only [Writer.takeSample]
    split
    · exact config.chunkSize_pos
    · rename_i partly
      rw [size] at partly
      exact Nat.lt_of_le_of_ne heard.chunkLen_lt partly
  · simp only [Writer.takeSample]
    split
    · rename_i full
      refine ⟨samples ++ [sample], ?_, List.append_nil _⟩
      rw [opened, Writer.writeFromSlice_file, ← grown, full, List.take_length]
    · exact ⟨written, opened, grown⟩

/-- When the chunk has been flushed the file holds everything. -/
theorem finish_snd (heard : Heard config asF64 samples w) :
    w.finish.snd = Writer.file config.output samples := by
  rcases heard.written with ⟨written, opened, split⟩
  unfold Writer.finish
  split
  · change Writer.writeFromSlice w.snd _ = _
    rw [opened, Writer.writeFromSlice_file, split]
  · rename_i nothing
    have empty : w.chunkLen = 0 := Nat.eq_zero_of_not_pos nothing
    rw [empty, List.take_zero, List.append_nil] at split
    rw [opened, split]

end Heard

end Probe
end Rfofs
