import Mathlib

namespace Rfofs
namespace Foundation

/-!
# Loops over lanes with a scalar tail

A vectorized loop takes whole chunks of `lanes` samples while it can and finishes
one sample at a time.  An accumulator is carried through both parts: a chunk
advances it by one stride, a tail sample by one step.

The scalar loop alone is the specification.  Its result is explicit: sample `k`
sees the accumulator after `k` steps (`scalarLoop_eq`).  A chunk that agrees with
the scalar loop on one chunk makes the whole loop agree, whatever the length of
the input (`laneLoop_eq_scalarLoop`), so the boundary between chunks and tail is
invisible.
-/

variable {A X Y : Type*}

/-- One sample after the other; `out` is the new sample and `next` the new
accumulator. -/
def scalarLoop (out : A → Nat → X → Y) (next : A → A) : A → Nat → List X → List Y × A
  | acc, _, [] => ([], acc)
  | acc, idx, x :: xs =>
      let rest := scalarLoop out next (next acc) (idx + 1) xs
      (out acc idx x :: rest.1, rest.2)

/-- Chunks of `lanes` samples while that many remain, then the scalar loop.  The accumulator
is moved by `stride` behind each chunk. -/
def laneLoop (lanes : Nat) (positive : 0 < lanes) (chunk : A → Nat → List X → List Y)
    (stride : A → A) (out : A → Nat → X → Y) (next : A → A) (acc : A) (idx : Nat)
    (xs : List X) : List Y × A :=
  if lanes ≤ xs.length then
    let rest := laneLoop lanes positive chunk stride out next (stride acc) (idx + lanes)
      (xs.drop lanes)
    (chunk acc idx (xs.take lanes) ++ rest.1, rest.2)
  else
    scalarLoop out next acc idx xs
termination_by xs.length
decreasing_by
  rw [List.length_drop]
  omega

theorem scalarLoop_append (out : A → Nat → X → Y) (next : A → A) (acc : A) (idx : Nat)
    (xs ys : List X) :
    scalarLoop out next acc idx (xs ++ ys) =
      ((scalarLoop out next acc idx xs).1 ++
          (scalarLoop out next (scalarLoop out next acc idx xs).2 (idx + xs.length) ys).1,
        (scalarLoop out next (scalarLoop out next acc idx xs).2 (idx + xs.length) ys).2) := by
  induction xs generalizing acc idx with
  | nil => rfl
  | cons x xs ih =>
      have shifted : idx + 1 + xs.length = idx + (x :: xs).length := by
        rw [List.length_cons]
        omega
      simp only [List.cons_append, scalarLoop, ih, shifted]

/-- Sample `k` sees the accumulator after `k` steps. -/
theorem scalarLoop_eq (out : A → Nat → X → Y) (next : A → A) (acc : A) (idx : Nat)
    (xs : List X) :
    scalarLoop out next acc idx xs =
      (xs.mapIdx (fun k x => out (next^[k] acc) (idx + k) x), next^[xs.length] acc) := by
  induction xs generalizing acc idx with
  | nil => rfl
  | cons x xs ih =>
      have shifted : ∀ k, idx + 1 + k = idx + (k + 1) := fun k => by omega
      simp only [scalarLoop, ih, List.mapIdx_cons, List.length_cons, Function.iterate_succ_apply,
        Function.iterate_zero, id_eq, Nat.add_zero, shifted]

theorem scalarLoop_length (out : A → Nat → X → Y) (next : A → A) (acc : A) (idx : Nat)
    (xs : List X) : (scalarLoop out next acc idx xs).1.length = xs.length := by
  rw [scalarLoop_eq, List.length_mapIdx]

/-- Chunks that do what the scalar loop does on one chunk leave no trace. -/
theorem laneLoop_eq_scalarLoop {lanes : Nat} (positive : 0 < lanes)
    {chunk : A → Nat → List X → List Y} {stride : A → A} {out : A → Nat → X → Y} {next : A → A}
    (chunkSamples : ∀ acc idx (xs : List X), xs.length = lanes →
      chunk acc idx xs = xs.mapIdx (fun k x => out (next^[k] acc) (idx + k) x))
    (chunkStride : ∀ acc, stride acc = next^[lanes] acc) (acc : A) (idx : Nat) (xs : List X) :
    laneLoop lanes positive chunk stride out next acc idx xs =
      scalarLoop out next acc idx xs := by
  fun_induction laneLoop lanes positive chunk stride out next acc idx xs with
  | case1 acc idx xs enough rest ih =>
      have taken : (xs.take lanes).length = lanes := List.length_take_of_le enough
      have first := scalarLoop_eq out next acc idx (xs.take lanes)
      conv_rhs => rw [← List.take_append_drop lanes xs]
      rw [scalarLoop_append, first, taken, chunkSamples acc idx _ taken]
      rw [← chunkStride, ← ih]
  | case2 => rfl

section Related

variable {rel : Y → Y → Prop} {inv : A → Prop} {out out' : A → Nat → X → Y} {next : A → A}

/-- Two scalar loops over the same samples, with the same accumulator. -/
theorem scalarLoop_related (outs : ∀ acc idx x, inv acc → rel (out acc idx x) (out' acc idx x))
    (nexts : ∀ acc, inv acc → inv (next acc)) {acc : A} (start : inv acc) (idx : Nat)
    (xs : List X) :
    List.Forall₂ rel (scalarLoop out next acc idx xs).1 (scalarLoop out' next acc idx xs).1 ∧
      (scalarLoop out' next acc idx xs).2 = (scalarLoop out next acc idx xs).2 ∧
      inv (scalarLoop out next acc idx xs).2 := by
  induction xs generalizing acc idx with
  | nil => exact ⟨.nil, rfl, start⟩
  | cons x xs ih =>
      rcases ih (nexts acc start) (idx + 1) with ⟨rest, same, kept⟩
      exact ⟨.cons (outs acc idx x start) rest, same, kept⟩

/-- Two loops whose chunks and tail samples are related are related as a whole; they carry
the same accumulator. -/
theorem laneLoop_related {lanes : Nat} (positive : 0 < lanes)
    {chunk chunk' : A → Nat → List X → List Y} {stride : A → A}
    (chunks : ∀ acc idx xs, inv acc → xs.length = lanes →
      List.Forall₂ rel (chunk acc idx xs) (chunk' acc idx xs))
    (strides : ∀ acc, inv acc → inv (stride acc))
    (outs : ∀ acc idx x, inv acc → rel (out acc idx x) (out' acc idx x))
    (nexts : ∀ acc, inv acc → inv (next acc)) {acc : A} (start : inv acc) (idx : Nat)
    (xs : List X) :
    List.Forall₂ rel (laneLoop lanes positive chunk stride out next acc idx xs).1
        (laneLoop lanes positive chunk' stride out' next acc idx xs).1 ∧
      (laneLoop lanes positive chunk' stride out' next acc idx xs).2 =
        (laneLoop lanes positive chunk stride out next acc idx xs).2 ∧
      inv (laneLoop lanes positive chunk stride out next acc idx xs).2 := by
  fun_induction laneLoop lanes positive chunk stride out next acc idx xs with
  | case1 acc idx xs enough rest ih =>
      rcases ih (strides acc start) with ⟨later, same, kept⟩
      rw [laneLoop, if_pos enough]
      exact ⟨List.rel_append (chunks acc idx _ start (List.length_take_of_le enough)) later,
        same, kept⟩
  | case2 acc idx xs short =>
      rw [laneLoop, if_neg short]
      exact scalarLoop_related outs nexts start idx xs

end Related

/-- Chunks that have their length give the whole its length. -/
theorem laneLoop_length {lanes : Nat} (positive : 0 < lanes) {chunk : A → Nat → List X → List Y}
    (chunkLength : ∀ acc idx (xs : List X), (chunk acc idx xs).length = lanes)
    (stride : A → A) (out : A → Nat → X → Y) (next : A → A) (acc : A) (idx : Nat) (xs : List X) :
    (laneLoop lanes positive chunk stride out next acc idx xs).1.length = xs.length := by
  fun_induction laneLoop lanes positive chunk stride out next acc idx xs with
  | case1 acc idx xs enough rest ih =>
      rw [List.length_append, chunkLength, ih, List.length_drop]
      omega
  | case2 acc idx xs short => exact scalarLoop_length out next acc idx xs

/-- Two halves of a list, each zipped with its half of another one. -/
theorem zipWith_halves {Z : Type*} (f : Y → X → Z) {front : List Y} (back : List Y) {xs : List X}
    {n : Nat} (length : front.length = (xs.take n).length) :
    List.zipWith f (front ++ back) xs =
      List.zipWith f front (xs.take n) ++ List.zipWith f back (xs.drop n) := by
  conv_lhs => rw [← List.take_append_drop n xs]
  exact List.zipWith_append length

section Notes

variable {write : Y → X → X} {out : A → Nat → X → X} {note : A → Nat → Y} {next : A → A}

/-- A loop that writes notes which do not depend on the samples. -/
theorem scalarLoop_zipWith (outs : ∀ acc idx x, out acc idx x = write (note acc idx) x) (acc : A)
    (idx : Nat) (xs : List X) :
    (scalarLoop out next acc idx xs).1 =
      List.zipWith write
        (scalarLoop (fun acc idx (_ : X) => note acc idx) next acc idx xs).1 xs := by
  induction xs generalizing acc idx with
  | nil => rfl
  | cons x xs ih => simp only [scalarLoop, List.zipWith_cons_cons, outs, ih]

/-- The same for a loop over lanes: its samples are the notes of the loop, written one by
one. -/
theorem laneLoop_zipWith {lanes : Nat} (positive : 0 < lanes)
    {chunk : A → Nat → List X → List X} {notes : A → Nat → List Y} {stride : A → A}
    (notesLength : ∀ acc idx, (notes acc idx).length = lanes)
    (chunks : ∀ acc idx xs, xs.length = lanes →
      chunk acc idx xs = List.zipWith write (notes acc idx) xs)
    (outs : ∀ acc idx x, out acc idx x = write (note acc idx) x) (acc : A) (idx : Nat)
    (xs : List X) :
    (laneLoop lanes positive chunk stride out next acc idx xs).1 =
      List.zipWith write (laneLoop lanes positive (fun acc idx (_ : List X) => notes acc idx)
        stride (fun acc idx (_ : X) => note acc idx) next acc idx xs).1 xs := by
  fun_induction laneLoop lanes positive chunk stride out next acc idx xs with
  | case1 acc idx xs enough rest ih =>
      have taken : (xs.take lanes).length = lanes := List.length_take_of_le enough
      rw [laneLoop, if_pos enough]
      dsimp only
      rw [zipWith_halves write _ ((notesLength acc idx).trans taken.symm), ← chunks acc idx _ taken,
        ← ih]
  | case2 acc idx xs short =>
      rw [laneLoop, if_neg short]
      exact scalarLoop_zipWith outs acc idx xs

end Notes

end Foundation
end Rfofs
