import Mathlib

namespace Rfofs
namespace Foundation

/-!
# Frames of interleaved samples

A frame holds one sample for each channel.  In a stream of whole frames the channels
take turns, so a reader that counts the samples knows the channel of each: sample `i`
belongs to channel `i % n`.  The lane of a channel is what such a reader hears of it.
-/

variable {X : Type*} {n : Nat}

/-- The samples of the frames, one frame after the other. -/
def interleaved (frames : List (Fin n → X)) : List X :=
  frames.flatMap List.ofFn

/-- The samples of a stream at the positions of a channel. -/
def lane (n ch : Nat) (samples : List X) : List X :=
  (samples.zipIdx.filter (fun entry => decide (entry.2 % n = ch))).map Prod.fst

theorem interleaved_concat (frames : List (Fin n → X)) (frame : Fin n → X) :
    interleaved (frames ++ [frame]) = interleaved frames ++ List.ofFn frame := by
  rw [interleaved, interleaved, List.flatMap_append, List.flatMap_singleton]

theorem interleaved_length (frames : List (Fin n → X)) :
    (interleaved frames).length = frames.length * n := by
  induction frames using List.reverseRecOn with
  | nil => exact (Nat.zero_mul n).symm
  | append_singleton frames frame ih =>
      rw [interleaved_concat, List.length_append, ih, List.length_ofFn, List.length_append,
        List.length_singleton, Nat.add_mul, Nat.one_mul]

theorem lane_append (ch : Nat) (first second : List X) :
    lane n ch (first ++ second) = lane n ch first ++
      ((second.zipIdx first.length).filter (fun entry => decide (entry.2 % n = ch))).map
        Prod.fst := by
  rw [lane, List.zipIdx_append, List.filter_append, List.map_append, Nat.zero_add]
  rfl

/-- A sample is heard on the channel whose turn it is. -/
theorem lane_concat (ch : Nat) (samples : List X) (sample : X) :
    lane n ch (samples ++ [sample]) =
      lane n ch samples ++ (if samples.length % n = ch then [sample] else []) := by
  rw [lane_append]
  congr 1
  by_cases turn : samples.length % n = ch
  · rw [if_pos turn, List.zipIdx_singleton, List.filter_cons_of_pos (by simpa using turn)]
    rfl
  · rw [if_neg turn, List.zipIdx_singleton, List.filter_cons_of_neg (by simpa using turn)]
    rfl

/-- The positions of the samples of a frame. -/
theorem zipIdx_ofFn (frame : Fin n → X) (start : Nat) :
    (List.ofFn frame).zipIdx start =
      (List.finRange n).map (fun ch => (frame ch, start + ch.val)) := by
  apply List.ext_getElem
  · simp
  · intro i inside _
    simp

/-- A frame that begins at its boundary is heard once on each channel. -/
theorem lane_append_frame {samples : List X} (boundary : samples.length % n = 0)
    (frame : Fin n → X) (ch : Fin n) :
    lane n ch.val (samples ++ List.ofFn frame) = lane n ch.val samples ++ [frame ch] := by
  have turn : ∀ i : Fin n,
      decide ((samples.length + i.val) % n = ch.val) = decide (i = ch) := by
    intro i
    rw [Nat.add_mod, boundary, Nat.zero_add, Nat.mod_mod, Nat.mod_eq_of_lt i.isLt]
    exact decide_eq_decide.mpr Fin.ext_iff.symm
  rw [lane_append, zipIdx_ofFn, List.filter_map, List.map_map]
  congr 1
  have same : (List.finRange n).filter ((fun entry : X × Nat => decide (entry.2 % n = ch.val)) ∘
      fun i => (frame i, samples.length + i.val)) = [ch] := by
    rw [← List.replicate_one, ← List.count_eq_one_of_mem (List.nodup_finRange n)
      (List.mem_finRange ch), ← List.filter_eq]
    apply List.filter_congr
    intro i _
    exact turn i
  rw [same]
  rfl

/-- In a stream of whole frames the lane of a channel is the channel. -/
theorem lane_interleaved (frames : List (Fin n → X)) (ch : Fin n) :
    lane n ch.val (interleaved frames) = frames.map (fun frame => frame ch) := by
  induction frames using List.reverseRecOn with
  | nil => rfl
  | append_singleton frames frame ih =>
      have boundary : (interleaved frames).length % n = 0 := by
        rw [interleaved_length]
        exact Nat.mul_mod_left _ _
      rw [interleaved_concat, lane_append_frame boundary, ih, List.map_append]
      rfl

end Foundation
end Rfofs
