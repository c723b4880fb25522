import Mathlib

namespace Rfofs
namespace Foundation

/-!
# Stable order of a list by a numeric key

A bucketed queue releases its entries bucket by bucket, and inside a bucket in
the order in which they arrived.  This module gives that order a name that does
not mention buckets: `orderedBelow key bound xs` lists the entries of `xs` whose
key lies below `bound`, by increasing key, and entries of one key in their order
in `xs`.

The definitions split along the key range, so a queue that releases one range
after another produces the same list as a queue that releases everything at once
(`orderedBelow_split`).  The remaining lemmas say what a client of the order
needs: it is sorted, it is stable, it loses and duplicates nothing, and on an
already sorted list it is only a filter.
-/

variable {X : Type*} (key : X → Nat)

/-- The entries of one key, in their order in `xs`. -/
def keyClass (k : Nat) (xs : List X) : List X :=
  xs.filter (fun x => key x = k)

/-- The classes of the keys `low, low + 1, …, low + count - 1`, in this order. -/
def orderedFrom (low count : Nat) (xs : List X) : List X :=
  (List.range' low count).flatMap (fun k => keyClass key k xs)

/-- The entries with a key below `bound`, by key and then by position. -/
def orderedBelow (bound : Nat) (xs : List X) : List X :=
  orderedFrom key 0 bound xs

variable {key}

@[simp] theorem mem_keyClass {k : Nat} {xs : List X} {x : X} :
    x ∈ keyClass key k xs ↔ x ∈ xs ∧ key x = k := by
  simp [keyClass]

@[simp] theorem keyClass_nil (k : Nat) : keyClass key k ([] : List X) = [] := rfl

theorem keyClass_append (k : Nat) (xs ys : List X) :
    keyClass key k (xs ++ ys) = keyClass key k xs ++ keyClass key k ys :=
  List.filter_append xs ys

theorem keyClass_singleton (k : Nat) (x : X) :
    keyClass key k [x] = if key x = k then [x] else [] := by
  simp [keyClass, List.filter_cons]

theorem keyClass_map {Y : Type*} (f : Y → X) (k : Nat) (ys : List Y) :
    keyClass key k (ys.map f) = (keyClass (key ∘ f) k ys).map f :=
  List.filter_map

theorem keyClass_eq_nil {k : Nat} {xs : List X} (absent : ∀ x ∈ xs, key x ≠ k) :
    keyClass key k xs = [] := by
  simpa [keyClass] using absent

theorem keyClass_filter (p : X → Bool) (k : Nat) (xs : List X) :
    keyClass key k (xs.filter p) = (keyClass key k xs).filter p := by
  unfold keyClass
  exact List.filter_comm _ _ _

/-- A filter that keeps the whole class of `k` does not change this class. -/
theorem keyClass_filter_of_kept {p : X → Bool} {k : Nat} {xs : List X}
    (kept : ∀ x ∈ xs, key x = k → p x = true) :
    keyClass key k (xs.filter p) = keyClass key k xs := by
  rw [keyClass_filter]
  apply List.filter_eq_self.mpr
  intro x member
  rcases mem_keyClass.mp member with ⟨listed, same⟩
  exact kept x listed same

theorem orderedFrom_zero (low : Nat) (xs : List X) : orderedFrom key low 0 xs = [] := rfl

theorem orderedFrom_succ (low count : Nat) (xs : List X) :
    orderedFrom key low (count + 1) xs =
      keyClass key low xs ++ orderedFrom key (low + 1) count xs := by
  simp [orderedFrom, List.range'_succ]

theorem orderedFrom_add (low first second : Nat) (xs : List X) :
    orderedFrom key low (first + second) xs =
      orderedFrom key low first xs ++ orderedFrom key (low + first) second xs := by
  induction first generalizing low with
  | zero => simp [orderedFrom_zero]
  | succ first ih =>
      rw [show first + 1 + second = (first + second) + 1 by omega, orderedFrom_succ,
        orderedFrom_succ, ih, List.append_assoc, show low + 1 + first = low + (first + 1) by omega]

/-- One more class at the end. -/
theorem orderedFrom_succ_last (low count : Nat) (xs : List X) :
    orderedFrom key low (count + 1) xs =
      orderedFrom key low count xs ++ keyClass key (low + count) xs := by
  rw [orderedFrom_add, orderedFrom_succ, orderedFrom_zero, List.append_nil]

theorem orderedFrom_map {Y : Type*} (f : Y → X) (low count : Nat) (ys : List Y) :
    orderedFrom key low count (ys.map f) = (orderedFrom (key ∘ f) low count ys).map f := by
  simp only [orderedFrom, keyClass_map, List.map_flatMap]

@[simp] theorem mem_orderedFrom {low count : Nat} {xs : List X} {x : X} :
    x ∈ orderedFrom key low count xs ↔ x ∈ xs ∧ low ≤ key x ∧ key x < low + count := by
  simp only [orderedFrom, List.mem_flatMap, List.mem_range'_1, mem_keyClass]
  constructor
  · rintro ⟨k, range, listed, same⟩
    exact ⟨listed, same ▸ range⟩
  · rintro ⟨listed, range⟩
    exact ⟨key x, range, listed, rfl⟩

/-- The classes between the bounds determine the list. -/
theorem orderedFrom_congr {low count : Nat} {xs ys : List X}
    (same : ∀ k, low ≤ k → k < low + count → keyClass key k xs = keyClass key k ys) :
    orderedFrom key low count xs = orderedFrom key low count ys := by
  induction count generalizing low with
  | zero => rfl
  | succ count ih =>
      rw [orderedFrom_succ, orderedFrom_succ, same low (le_refl low) (by omega),
        ih (fun k above below => same k (by omega) (by omega))]

/-- Releasing the keys below `middle` and then those up to `bound` releases
everything below `bound` in one order. -/
theorem orderedBelow_split {middle bound : Nat} (ordered : middle ≤ bound) (xs : List X) :
    orderedBelow key bound xs =
      orderedBelow key middle xs ++ orderedFrom key middle (bound - middle) xs := by
  have total : bound = middle + (bound - middle) := by omega
  unfold orderedBelow
  rw [total, orderedFrom_add, Nat.zero_add, Nat.add_sub_cancel_left]

theorem orderedBelow_map {Y : Type*} (f : Y → X) (bound : Nat) (ys : List Y) :
    orderedBelow key bound (ys.map f) = (orderedBelow (key ∘ f) bound ys).map f :=
  orderedFrom_map f 0 bound ys

@[simp] theorem mem_orderedBelow {bound : Nat} {xs : List X} {x : X} :
    x ∈ orderedBelow key bound xs ↔ x ∈ xs ∧ key x < bound := by
  simp [orderedBelow]

/-- An entry at or beyond the bound does not change what lies below it. -/
theorem orderedBelow_append_of_le {bound : Nat} {xs : List X} {x : X} (beyond : bound ≤ key x) :
    orderedBelow key bound (xs ++ [x]) = orderedBelow key bound xs := by
  apply orderedFrom_congr
  intro k _ below
  rw [keyClass_append, keyClass_singleton, if_neg (by omega), List.append_nil]

theorem keyClass_orderedFrom_of_outside {k low count : Nat} {xs : List X}
    (outside : k < low ∨ low + count ≤ k) :
    keyClass key k (orderedFrom key low count xs) = [] := by
  apply keyClass_eq_nil
  intro x member same
  have range := (mem_orderedFrom.mp member).2
  omega

/-- Stability: inside the bound every class keeps its order. -/
theorem keyClass_orderedFrom {k low count : Nat} {xs : List X}
    (above : low ≤ k) (below : k < low + count) :
    keyClass key k (orderedFrom key low count xs) = keyClass key k xs := by
  induction count generalizing low with
  | zero => omega
  | succ count ih =>
      rw [orderedFrom_succ, keyClass_append]
      by_cases first : k = low
      · subst first
        rw [keyClass_orderedFrom_of_outside (Or.inl (Nat.lt_succ_self k)), List.append_nil]
        exact keyClass_filter_of_kept (fun x _ same => by simpa using same)
      · have empty : keyClass key k (keyClass key low xs) = [] := by
          apply keyClass_eq_nil
          intro x member same
          exact first (same.symm.trans (mem_keyClass.mp member).2)
        rw [empty, List.nil_append, ih (by omega) (by omega)]

/-- The keys of the list do not fall. -/
theorem orderedFrom_pairwise (low count : Nat) (xs : List X) :
    (orderedFrom key low count xs).Pairwise (fun x y => key x ≤ key y) := by
  induction count generalizing low with
  | zero => exact List.Pairwise.nil
  | succ count ih =>
      rw [orderedFrom_succ, List.pairwise_append]
      refine ⟨?_, ih (low + 1), ?_⟩
      · apply List.pairwise_of_forall_mem_list
        intro x first y second
        exact le_of_eq ((mem_keyClass.mp first).2.trans (mem_keyClass.mp second).2.symm)
      · intro x first y second
        have keyX := (mem_keyClass.mp first).2
        have keyY := (mem_orderedFrom.mp second).2.1
        omega

theorem orderedBelow_pairwise (bound : Nat) (xs : List X) :
    (orderedBelow key bound xs).Pairwise (fun x y => key x ≤ key y) :=
  orderedFrom_pairwise 0 bound xs

/-- Nothing is lost and nothing is released twice. -/
theorem orderedFrom_perm (low count : Nat) (xs : List X) :
    (orderedFrom key low count xs).Perm
      (xs.filter (fun x => decide (low ≤ key x ∧ key x < low + count))) := by
  induction count generalizing low with
  | zero =>
      have empty : xs.filter (fun x => decide (low ≤ key x ∧ key x < low + 0)) = [] := by
        apply List.filter_eq_nil_iff.mpr
        intro x _
        simp only [decide_eq_true_eq]
        omega
      rw [empty, orderedFrom_zero]
  | succ count ih =>
      rw [orderedFrom_succ]
      have split := List.filter_append_perm (fun x => decide (key x = low))
        (xs.filter (fun x => decide (low ≤ key x ∧ key x < low + (count + 1))))
      refine List.Perm.trans (List.Perm.append ?_ ((ih (low + 1)).trans ?_)) split
      · rw [List.filter_filter]
        apply List.Perm.of_eq
        apply List.filter_congr
        intro x _
        rw [Bool.eq_iff_iff]
        simp only [Bool.and_eq_true, decide_eq_true_eq]
        omega
      · rw [List.filter_filter]
        apply List.Perm.of_eq
        apply List.filter_congr
        intro x _
        rw [Bool.eq_iff_iff]
        simp only [Bool.and_eq_true, Bool.not_eq_true', decide_eq_true_eq, decide_eq_false_iff_not]
        omega

theorem orderedBelow_perm (bound : Nat) (xs : List X) :
    (orderedBelow key bound xs).Perm (xs.filter (fun x => decide (key x < bound))) := by
  have perm : (orderedFrom key 0 bound xs).Perm _ := orderedFrom_perm 0 bound xs
  simpa [orderedBelow] using perm

/-- Released and retained entries together are the whole list. -/
theorem orderedBelow_append_retained_perm (bound : Nat) (xs : List X) :
    (orderedBelow key bound xs ++ xs.filter (fun x => decide (bound ≤ key x))).Perm xs := by
  have split := List.filter_append_perm (fun x => decide (key x < bound)) xs
  have retained : xs.filter (fun x => !decide (key x < bound)) =
      xs.filter (fun x => decide (bound ≤ key x)) := by
    apply List.filter_congr
    intro x _
    simp only [← decide_not, Nat.not_lt]
  rw [retained] at split
  exact ((orderedBelow_perm bound xs).append_right _).trans split

/-- On a list that is already sorted by key the release order is a filter. -/
theorem orderedBelow_eq_filter_of_sorted {bound : Nat} {xs : List X}
    (sorted : xs.Pairwise (fun x y => key x ≤ key y)) :
    orderedBelow key bound xs = xs.filter (fun x => decide (key x < bound)) := by
  induction xs with
  | nil => simp [orderedBelow, orderedFrom]
  | cons head tail ih =>
      have parts := List.pairwise_cons.mp sorted
      by_cases below : key head < bound
      · rw [List.filter_cons_of_pos (by simpa using below), ← ih parts.2]
        have early : orderedBelow key (key head) tail = [] := by
          apply List.eq_nil_iff_forall_not_mem.mpr
          intro x member
          have listed := mem_orderedBelow.mp member
          have later := parts.1 x listed.1
          omega
        have earlyCons : orderedBelow key (key head) (head :: tail) = [] := by
          apply List.eq_nil_iff_forall_not_mem.mpr
          intro x member
          have listed := mem_orderedBelow.mp member
          rcases List.mem_cons.mp listed.1 with same | later
          · subst same
            omega
          · have released := mem_orderedBelow.mpr ⟨later, listed.2⟩
            rw [early] at released
            cases released
        rw [orderedBelow_split (le_of_lt below) (head :: tail),
          orderedBelow_split (le_of_lt below) tail, early, earlyCons, List.nil_append,
          List.nil_append, show bound - key head = (bound - key head - 1) + 1 by omega,
          orderedFrom_succ, orderedFrom_succ]
        have headClass : keyClass key (key head) (head :: tail) =
            head :: keyClass key (key head) tail := by
          simp [keyClass]
        have rest : orderedFrom key (key head + 1) (bound - key head - 1) (head :: tail) =
            orderedFrom key (key head + 1) (bound - key head - 1) tail := by
          apply orderedFrom_congr
          intro k above _
          unfold keyClass
          rw [List.filter_cons_of_neg]
          simp only [decide_eq_true_eq]
          omega
        rw [headClass, rest, List.cons_append]
      · rw [List.filter_cons_of_neg (by simpa using below), ← ih parts.2]
        apply orderedFrom_congr
        intro k _ bounded
        unfold keyClass
        rw [List.filter_cons_of_neg]
        simp only [decide_eq_true_eq]
        omega

theorem keyClass_orderedBelow {k bound : Nat} {xs : List X} (below : k < bound) :
    keyClass key k (orderedBelow key bound xs) = keyClass key k xs :=
  keyClass_orderedFrom (Nat.zero_le k) (by omega)

end Foundation
end Rfofs
