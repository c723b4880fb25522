import Rfofs.Control.Handshake

namespace Rfofs
namespace Control

open Foundation
open Engine (ClockMode)

/-!
# The words of one segment

The words of a new segment are zero.  Its creator stores each of them and `ready` last, and
clients store clock modes.  Whoever acquires `ready` has seen every word stored, so that a
load of it afterwards returns a value that was stored, never the zero of the new page.
-/

section Memory

variable {ι κ : Type*} {args : CreateArgs} {modes : List Nat} {m next : SegmentMemory ι κ}

/-- A view that has seen every word stored.  A load with this view never returns a zero of the
fresh pages. -/
def Complete (view : View ControlWord (Party ι κ)) : Prop := ∀ a, 0 < view.stamp a

/-- The words of a segment are zero until they are stored, and whoever acquires `ready`
has seen them all.  Clients switch to clock modes that exist. -/
structure Sound (args : CreateArgs) (modes : List Nat) (m : SegmentMemory ι κ) : Prop where
  coherent : m.Coherent
  blank : ∀ a message, (m.history a)[0]? = some message → message.value = 0
  value : ∀ a t message, (m.history a)[t]? = some message → 0 < t →
    args.Allows modes a message.value
  named : ∀ value ∈ modes, ∃ mode, ClockMode.fromU32 value = some mode
  released : ∀ t message, (m.history .ready)[t]? = some message → 0 < t →
    Complete message.view

namespace Sound

theorem zeroed (args : CreateArgs) : Sound args [] (zeroed ι κ) := by
  have founded : (Control.zeroed ι κ).Founded View.bottom :=
    Memory.founded_bottom (fun _ => List.cons_ne_nil _ _)
  have first : ∀ {t : Nat} {message : Message ControlWord (Party ι κ) Nat},
      [(⟨0, View.bottom⟩ : Message ControlWord (Party ι κ) Nat)][t]? = some message →
        t = 0 ∧ message = ⟨0, View.bottom⟩ := by
    intro t message found
    rcases List.getElem?_eq_some_iff.mp found with ⟨inside, rfl⟩
    rw [List.length_singleton] at inside
    exact ⟨Nat.lt_one_iff.mp inside, List.getElem_singleton ..⟩
  refine ⟨⟨fun _ => founded, ?_⟩, ?_, ?_, fun _ member => absurd member List.not_mem_nil, ?_⟩
  · intro a message member
    rw [List.mem_singleton.mp member]
    exact founded
  · intro a message found
    rw [(first found).2]
  · intro a t message found later
    exact absurd (first found).1 (Nat.ne_of_gt later)
  · intro t message found later
    exact absurd (first found).1 (Nat.ne_of_gt later)

variable [DecidableEq ι] [DecidableEq κ]

theorem load (sound : Sound args modes m) {p : Party ι κ} {a : ControlWord} {order : LoadOrder} {t value : Nat}
    (loaded : m.load p a order t = some (value, next)) :
    Sound args modes next ∧ (0 < (m.views p).stamp a → args.Allows modes a value) := by
  have history := (m.load_eq_self loaded).1
  constructor
  · refine ⟨sound.coherent.load loaded, ?_, ?_, sound.named, ?_⟩ <;> rw [history]
    · exact sound.blank
    · exact sound.value
    · exact sound.released
  · intro seen
    rcases m.load_eq_some.mp loaded with ⟨message, recent, found, rfl, _⟩
    exact sound.value a t message found (seen.trans_le recent)

/-- A client that finds `ready` set has seen every word stored.  The message of `ready`
carries the view of the creator. -/
theorem acquire (sound : Sound args modes m) {p : Party ι κ} {t : Nat}
    (loaded : m.load p .ready .acquire t = some (1, next)) :
    Complete (next.views p) ∧ 0 < t ∧ t < (m.history .ready).length := by
  rcases m.load_eq_some.mp loaded with ⟨message, _, found, set, rfl⟩
  have later : 0 < t := by
    apply Nat.pos_of_ne_zero
    rintro rfl
    rw [sound.blank .ready message found] at set
    cases set
  refine ⟨fun b => ?_, later, (List.getElem?_eq_some_iff.mp found).1⟩
  rw [Memory.setView_self, View.join_stamp]
  exact (sound.released t message found later b).trans_le (le_max_right _ _)

/-- A store of an allowed value, where `ready` is released after all others. -/
theorem store (sound : Sound args modes m) (p : Party ι κ) {a : ControlWord} {order : StoreOrder} {value : Nat}
    (allowed : args.Allows modes a value)
    (last : a = .ready → order = .release ∧ ∀ b, b ≠ .ready → 0 < (m.views p).stamp b) :
    Sound args modes (m.store p a order value) ∧
      0 < ((m.store p a order value).views p).stamp a := by
  have stored := List.length_pos_iff.mpr (sound.coherent.stored p a)
  have seen : 0 < ((m.views p).witness a (m.history a).length).stamp a := by
    rw [View.witness_stamp_self]
    exact stored.trans_le (le_max_right _ _)
  have messages : ∀ {b : ControlWord} {t : Nat} {message : Message ControlWord (Party ι κ) Nat},
      ((m.store p a order value).history b)[t]? = some message →
      (m.history b)[t]? = some message ∨ (b = a ∧ t = (m.history a).length ∧ message =
        ⟨value, order.attach ((m.views p).witness a (m.history a).length) a
          (m.history a).length⟩) :=
    fun listed => m.getElem?_append listed
  refine ⟨⟨sound.coherent.store p a order value, ?_, ?_, sound.named, ?_⟩, ?_⟩
  · intro b message found
    rcases messages found with old | ⟨rfl, first, _⟩
    · exact sound.blank b message old
    · exact absurd first.symm (Nat.ne_of_gt stored)
  · intro b t message found later
    rcases messages found with old | ⟨rfl, _, rfl⟩
    · exact sound.value b t message old later
    · exact allowed
  · intro t message found later
    rcases messages found with old | ⟨rfl, _, rfl⟩
    · exact sound.released t message old later
    · rcases last rfl with ⟨rfl, others⟩
      intro b
      by_cases same : b = .ready
      · rw [same]
        exact seen
      · exact (others b same).trans_le (View.stamp_le_witness _ _ _ b)
  · change 0 < (((m.append a _).setView p _).views p).stamp a
    rw [Memory.setView_self]
    exact seen

omit [DecidableEq ι] [DecidableEq κ] in
/-- A client that switches the clock mode.  The value that it stores is one that the word
allows. -/
theorem switch (sound : Sound args modes m) (p : Party ι κ) {value : Nat} {mode : ClockMode}
    (named : ClockMode.fromU32 value = some mode) :
    Sound args (modes ++ [value]) (m.append .clockMode ⟨value, View.bottom⟩) := by
  have stored : ∀ a, m.history a ≠ [] := sound.coherent.stored p
  refine ⟨sound.coherent.append stored .clockMode value, ?_, ?_, ?_, ?_⟩
  · intro a message found
    rcases m.getElem?_append found with old | ⟨rfl, first, _⟩
    · exact sound.blank a message old
    · exact absurd (List.eq_nil_of_length_eq_zero first.symm) (stored _)
  · intro a t message found later
    rcases m.getElem?_append found with old | ⟨rfl, _, rfl⟩
    · exact (sound.value a t message old later).switch value
    · exact Or.inr (List.mem_append_right _ List.mem_cons_self)
  · intro other member
    rcases List.mem_append.mp member with old | new
    · exact sound.named other old
    · exact ⟨mode, List.mem_singleton.mp new ▸ named⟩
  · intro t message found later
    rcases m.getElem?_append found with old | ⟨impossible, _, _⟩
    · exact sound.released t message old later
    · cases impossible

end Sound

end Memory

end Control
end Rfofs
