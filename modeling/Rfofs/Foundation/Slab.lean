import Mathlib

namespace Rfofs
namespace Foundation

/-!
# A pool of values under stable keys

A pool hands out a key for every value it takes in and keeps it until the value is
removed.  Which unused key it hands out is its own affair: a `KeyChoice` is any rule
that never picks a key in use, so what is proved for every choice holds for every
allocation strategy.  Iteration follows the order of the keys.
-/

/-- A rule that picks an unused key.  Results that hold for every rule do not depend on how a
slab reuses its keys. -/
structure KeyChoice where
  pick : List Nat → Nat
  fresh : ∀ keys, pick keys ∉ keys

/-- The key behind the largest one in use. -/
def KeyChoice.next : KeyChoice where
  pick keys := keys.foldr max 0 + 1
  fresh := by
    intro keys member
    have bounded : ∀ (list : List Nat), ∀ key ∈ list, key ≤ list.foldr max 0 := by
      intro list
      induction list with
      | nil => exact nofun
      | cons head tail ih =>
          intro key member
          rcases List.mem_cons.mp member with rfl | later
          · exact Nat.le_max_left _ _
          · exact (ih key later).trans (Nat.le_max_right _ _)
    exact absurd (bounded keys _ member) (Nat.not_succ_le_self _)

/-- Values under keys, in the order of the keys. -/
@[ext] structure Slab (V : Type*) where
  entries : List (Nat × V)
  sorted : entries.Pairwise (fun x y => x.1 < y.1)

namespace Slab

variable {V : Type*}

def empty : Slab V := ⟨[], List.Pairwise.nil⟩

def keys (slab : Slab V) : List Nat := slab.entries.map Prod.fst

def values (slab : Slab V) : List V := slab.entries.map Prod.snd

/-- Take in a value under an unused key. -/
def insert (slab : Slab V) (key : Nat) (value : V) : Slab V where
  entries := slab.entries.filter (fun entry => decide (entry.1 < key)) ++
    (key, value) :: slab.entries.filter (fun entry => decide (key < entry.1))
  sorted := by
    apply List.pairwise_append.mpr
    refine ⟨slab.sorted.filter _, List.pairwise_cons.mpr ⟨?_, slab.sorted.filter _⟩, ?_⟩
    · intro entry member
      exact of_decide_eq_true (List.mem_filter.mp member).2
    · intro entry member other later
      have below : entry.1 < key := of_decide_eq_true (List.mem_filter.mp member).2
      rcases List.mem_cons.mp later with rfl | above
      · exact below
      · exact below.trans (of_decide_eq_true (List.mem_filter.mp above).2)

/-- Change every value, given its key. -/
def mapValues (slab : Slab V) (f : Nat → V → V) : Slab V where
  entries := slab.entries.map (fun entry => (entry.1, f entry.1 entry.2))
  sorted := List.pairwise_map.mpr slab.sorted

/-- Change the value under one key. -/
def modify (slab : Slab V) (key : Nat) (f : V → V) : Slab V :=
  slab.mapValues (fun other value => if other = key then f value else value)

def get? (slab : Slab V) (key : Nat) : Option V :=
  (slab.entries.find? (fun entry => decide (entry.1 = key))).map Prod.snd

/-- Take the value under one key out. -/
def remove (slab : Slab V) (key : Nat) : Slab V where
  entries := slab.entries.filter (fun entry => decide (entry.1 ≠ key))
  sorted := slab.sorted.filter _

/-- Keep the values that satisfy a condition. -/
def retain (slab : Slab V) (keep : V → Bool) : Slab V where
  entries := slab.entries.filter (fun entry => keep entry.2)
  sorted := slab.sorted.filter _

theorem keys_nodup (slab : Slab V) : slab.keys.Nodup :=
  (List.pairwise_map.mpr slab.sorted).imp (fun below => Nat.ne_of_lt below)

/-- A key has one value. -/
theorem unique {slab : Slab V} {key : Nat} {value other : V}
    (member : (key, value) ∈ slab.entries) (otherMember : (key, other) ∈ slab.entries) :
    value = other :=
  congrArg Prod.snd (List.inj_on_of_nodup_map slab.keys_nodup member otherMember rfl)

theorem get?_eq_some {slab : Slab V} {key : Nat} {value : V} :
    slab.get? key = some value ↔ (key, value) ∈ slab.entries := by
  constructor
  · intro found
    rcases Option.map_eq_some_iff.mp found with ⟨entry, first, rfl⟩
    have same : entry.1 = key := of_decide_eq_true (List.find?_some (p := fun entry : Nat × V =>
      decide (entry.1 = key)) first)
    exact same ▸ List.mem_of_find?_eq_some first
  · intro member
    cases found : slab.get? key with
    | none =>
        have missed := List.find?_eq_none.mp (Option.map_eq_none_iff.mp found) _ member
        exact absurd (decide_eq_true rfl) missed
    | some other =>
        rcases Option.map_eq_some_iff.mp found with ⟨entry, first, rfl⟩
        have same : entry.1 = key := of_decide_eq_true (List.find?_some (p := fun entry : Nat × V =>
          decide (entry.1 = key)) first)
        have listed : (key, entry.2) ∈ slab.entries := same ▸ List.mem_of_find?_eq_some first
        rw [unique listed member]

/-- Where a change under a key takes place. -/
theorem modify_split {slab : Slab V} {before after : List (Nat × V)} {key : Nat} {value : V}
    (split : slab.entries = before ++ (key, value) :: after) (f : V → V) :
    (slab.modify key f).entries = before ++ (key, f value) :: after := by
  have nodup := slab.keys_nodup
  rw [keys, split, List.map_append, List.map_cons] at nodup
  have outside := (List.nodup_cons.mp (List.perm_middle.nodup_iff.mp nodup)).1
  rw [← List.map_append] at outside
  have same : ∀ list : List (Nat × V), (∀ entry ∈ list, entry ∈ before ++ after) →
      list.map (fun entry => (entry.1, if entry.1 = key then f entry.2 else entry.2)) = list := by
    intro list part
    refine (List.map_congr_left (fun entry member => ?_)).trans (List.map_id list)
    have different : entry.1 ≠ key := by
      intro equal
      exact outside (List.mem_map.mpr ⟨entry, part entry member, equal⟩)
    rw [if_neg different]
    rfl
  change slab.entries.map (fun entry => (entry.1, if entry.1 = key then f entry.2 else entry.2)) = _
  rw [split, List.map_append, List.map_cons, if_pos rfl,
    same before (fun _ member => List.mem_append_left _ member),
    same after (fun _ member => List.mem_append_right _ member)]

/-- Taking out several keys leaves the entries under the others. -/
theorem remove_foldl (slab : Slab V) (keys : List Nat) :
    (keys.foldl remove slab).entries =
      slab.entries.filter (fun entry => decide (entry.1 ∉ keys)) := by
  induction keys generalizing slab with
  | nil => simp
  | cons key keys ih =>
      rw [List.foldl_cons, ih, remove, List.filter_filter]
      apply List.filter_congr
      intro entry _
      by_cases same : entry.1 = key <;> simp [same]

theorem insert_perm (slab : Slab V) {key : Nat} (unused : key ∉ slab.keys) (value : V) :
    (slab.insert key value).entries.Perm ((key, value) :: slab.entries) := by
  have split : (slab.entries.filter (fun entry => decide (key < entry.1))) =
      slab.entries.filter (fun entry => !decide (entry.1 < key)) := by
    apply List.filter_congr
    intro entry member
    have different : entry.1 ≠ key := by
      rintro rfl
      exact unused (List.mem_map_of_mem member)
    rw [Bool.eq_iff_iff]
    simp only [decide_eq_true_eq, Bool.not_eq_true', decide_eq_false_iff_not]
    omega
  have whole := List.filter_append_perm (fun entry : Nat × V => decide (entry.1 < key))
    slab.entries
  change (_ ++ (key, value) :: slab.entries.filter (fun entry => decide (key < entry.1))).Perm _
  rw [split]
  exact List.perm_middle.trans (whole.cons _)

theorem mem_insert (slab : Slab V) {key : Nat} (unused : key ∉ slab.keys) (value : V)
    {entry : Nat × V} :
    entry ∈ (slab.insert key value).entries ↔ entry = (key, value) ∨ entry ∈ slab.entries := by
  rw [(slab.insert_perm unused value).mem_iff, List.mem_cons]

theorem insert_values_perm (slab : Slab V) {key : Nat} (unused : key ∉ slab.keys) (value : V) :
    (slab.insert key value).values.Perm (value :: slab.values) :=
  (slab.insert_perm unused value).map Prod.snd

theorem mapValues_values (slab : Slab V) (f : V → V) :
    (slab.mapValues (fun _ => f)).values = slab.values.map f := by
  simp only [values, mapValues, List.map_map]
  rfl

theorem retain_values (slab : Slab V) (keep : V → Bool) :
    (slab.retain keep).values = slab.values.filter keep := by
  rw [values, values, List.filter_map]
  rfl

/-! ## Changes of all values -/

section Changes

variable (g : V → V)

theorem mapValues_keys (slab : Slab V) : (slab.mapValues (fun _ => g)).keys = slab.keys := by
  rw [keys, mapValues, List.map_map]
  rfl

theorem mapValues_insert (slab : Slab V) (key : Nat) (value : V) :
    (slab.mapValues (fun _ => g)).insert key (g value) =
      (slab.insert key value).mapValues (fun _ => g) := by
  apply Slab.ext
  simp only [insert, mapValues, List.filter_map, List.map_append, List.map_cons]
  rfl

theorem mapValues_retain {keep : V → Bool} (same : ∀ value, keep (g value) = keep value)
    (slab : Slab V) :
    (slab.mapValues (fun _ => g)).retain keep = (slab.retain keep).mapValues (fun _ => g) := by
  apply Slab.ext
  simp only [retain, mapValues, List.filter_map]
  congr 1
  apply List.filter_congr
  intro entry _
  exact same entry.2

theorem mapValues_comm {f f' : V → V} (commutes : ∀ value, f' (g value) = g (f value))
    (slab : Slab V) :
    (slab.mapValues (fun _ => g)).mapValues (fun _ => f') =
      (slab.mapValues (fun _ => f)).mapValues (fun _ => g) := by
  apply Slab.ext
  simp only [mapValues, List.map_map]
  apply List.map_congr_left
  intro entry _
  exact congrArg (Prod.mk entry.1) (commutes entry.2)

theorem mapValues_modify {f : V → V} (commutes : ∀ value, f (g value) = g (f value))
    (slab : Slab V) (key : Nat) :
    (slab.mapValues (fun _ => g)).modify key f = (slab.modify key f).mapValues (fun _ => g) := by
  apply Slab.ext
  simp only [modify, mapValues, List.map_map]
  apply List.map_congr_left
  intro entry _
  simp only [Function.comp_apply]
  split
  · rw [commutes]
  · rfl

end Changes

end Slab

end Foundation
end Rfofs
