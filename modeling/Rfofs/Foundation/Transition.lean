import Mathlib

namespace Rfofs
namespace Foundation

/-!
# Runs of machines and of transition systems

The first half is about deterministic machines: a step consumes one input and
returns one output, and a run feeds a list of inputs.  Two machines related by a
simulation answer a run alike, a partial machine that succeeds wherever a run leads
it succeeds on the run, and every state of a run is good when every step of it fits.

The second half is about nondeterministic systems of several parties.  A step is
a relation with a label, and a guard restricts which steps a run may take; an
unguarded run is one whose guard is always true.  The guard is what lets one
system state a discipline its parties are supposed to follow.
-/

/-! ## Deterministic machines -/

section Machine

variable {S S' I O : Type*}

/-- Feed a list of inputs and collect the outputs. -/
def run (step : S → I → S × O) : S → List I → S × List O
  | state, [] => (state, [])
  | state, input :: inputs =>
      let next := step state input
      let rest := run step next.1 inputs
      (rest.1, next.2 :: rest.2)

/-- The run of a machine whose steps may fail; it fails with its first step. -/
def runPartial (step : S → I → Option (S × O)) : S → List I → Option (S × List O)
  | state, [] => some (state, [])
  | state, input :: inputs =>
      (step state input).bind (fun next =>
        (runPartial step next.1 inputs).map (fun rest => (rest.1, next.2 :: rest.2)))

@[simp] theorem run_nil (step : S → I → S × O) (state : S) :
    run step state [] = (state, []) := rfl

@[simp] theorem run_cons (step : S → I → S × O) (state : S) (input : I) (inputs : List I) :
    run step state (input :: inputs) =
      ((run step (step state input).1 inputs).1,
        (step state input).2 :: (run step (step state input).1 inputs).2) := rfl

/-- Related states that answer every input alike answer every run alike. -/
theorem run_simulation {step : S → I → S × O} {step' : S' → I → S' × O} (rel : S → S' → Prop)
    (simulated : ∀ state state' input, rel state state' →
      (step state input).2 = (step' state' input).2 ∧
        rel (step state input).1 (step' state' input).1)
    {state : S} {state' : S'} (start : rel state state') (inputs : List I) :
    (run step state inputs).2 = (run step' state' inputs).2 ∧
      rel (run step state inputs).1 (run step' state' inputs).1 := by
  induction inputs generalizing state state' with
  | nil => exact ⟨rfl, start⟩
  | cons input inputs ih =>
      have now := simulated state state' input start
      have later := ih now.2
      rw [run_cons, run_cons]
      exact ⟨by rw [now.1, later.1], later.2⟩

/-- A partial machine that succeeds like a total one wherever the run leads it
succeeds on the run, with the same outcome. -/
theorem runPartial_eq_run {partialStep : S → I → Option (S × O)} {step : S → I → S × O}
    {inputs : List I} {state : S}
    (succeeds : ∀ before input after, inputs = before ++ input :: after →
      partialStep (run step state before).1 input = some (step (run step state before).1 input)) :
    runPartial partialStep state inputs = some (run step state inputs) := by
  induction inputs generalizing state with
  | nil => rfl
  | cons input inputs ih =>
      have first := succeeds [] input inputs rfl
      rw [run_nil] at first
      have rest : runPartial partialStep (step state input).1 inputs =
          some (run step (step state input).1 inputs) := ih (fun before later after split => by
        have shifted := succeeds (input :: before) later after (by rw [split]; rfl)
        rwa [run_cons] at shifted)
      unfold runPartial
      rw [first, Option.bind_some, rest]
      rfl

/-- Where a step from a good state leads to a good state exactly when it fits, every state
of a run is good exactly when every step of it fits. -/
theorem foldl_good_iff (step : S → I → S) (inv good : S → Prop) (fits : S → I → Prop)
    (preserved : ∀ state input, inv state → inv (step state input))
    (met : ∀ state input, inv state → good state →
      (good (step state input) ↔ fits state input))
    {state : S} (start : inv state) (begins : good state) (inputs : List I) :
    (∀ earlier later, earlier ++ later = inputs → good (earlier.foldl step state)) ↔
      ∀ earlier input later, earlier ++ input :: later = inputs →
        fits (earlier.foldl step state) input := by
  induction inputs generalizing state with
  | nil =>
      constructor
      · intro _ earlier input later split
        exact absurd split (by simp)
      · intro _ earlier later split
        rw [(List.append_eq_nil_iff.mp split).1]
        exact begins
  | cons first rest ih =>
      have next := met state first start begins
      have resumed := ih (preserved state first start)
      constructor
      · intro states earlier input later split
        have onward : good (step state first) := states [first] rest rfl
        cases earlier with
        | nil =>
            cases split
            exact next.mp onward
        | cons call earlier =>
            cases split
            exact (resumed onward).mp (fun before after same =>
              states (first :: before) after (by rw [List.cons_append, same])) earlier input later rfl
      · intro steps earlier later split
        cases earlier with
        | nil => exact begins
        | cons call earlier =>
            cases split
            have onward : good (step state first) := next.mpr (steps [] first _ rfl)
            exact (resumed onward).mpr (fun before input after same =>
              steps (first :: before) input after (by rw [List.cons_append, same])) earlier later rfl

end Machine

/-! ## Labelled transition systems -/

section System

variable {S S' L L' : Type*}

/-- A system of interleaved parties: its initial states and its labelled steps. -/
structure System (S L : Type*) where
  init : S → Prop
  step : S → L → S → Prop

namespace System

/-- States that a run reaches by steps which all satisfy the guard. -/
inductive ReachableVia (system : System S L) (guard : S → L → Prop) : S → Prop where
  | init {state : S} : system.init state → ReachableVia system guard state
  | step {state next : S} {label : L} : ReachableVia system guard state →
      guard state label → system.step state label next → ReachableVia system guard next

/-- States that some run reaches. -/
def Reachable (system : System S L) : S → Prop :=
  system.ReachableVia (fun _ _ => True)

/-- The induction rule of invariants, for guarded runs.  What holds at first and is kept by
every guarded step holds in every state reached. -/
theorem ReachableVia.invariant {system : System S L} {guard : S → L → Prop} {inv : S → Prop}
    (start : ∀ state, system.init state → inv state)
    (preserved : ∀ state label next, inv state → guard state label →
      system.step state label next → inv next)
    {state : S} (reachable : system.ReachableVia guard state) : inv state := by
  induction reachable with
  | init initial => exact start _ initial
  | step _ allowed taken ih => exact preserved _ _ _ ih allowed taken

/-- The system of a step function; a label that it refuses is not enabled. -/
def ofStep (init : S → Prop) (step : S → L → Option S) : System S L where
  init := init
  step state label next := step state label = some next

end System

/-- Perform the labels of a list in turn, skipping those that are not enabled. -/
def perform (step : S → L → Option S) (state : S) (labels : List L) : S :=
  labels.foldl (fun state label => (step state label).getD state) state

namespace System

theorem ReachableVia.perform_one {init : S → Prop} {step : S → L → Option S}
    {guard : S → L → Prop} {state : S} (reached : (ofStep init step).ReachableVia guard state)
    (label : L) (allowed : guard state label) :
    (ofStep init step).ReachableVia guard (perform step state [label]) := by
  unfold perform
  rw [List.foldl_cons, List.foldl_nil]
  cases taken : step state label with
  | none => exact reached
  | some next => exact .step reached allowed taken

theorem Reachable.perform {init : S → Prop} {step : S → L → Option S} {state : S}
    (reached : (ofStep init step).Reachable state) (labels : List L) :
    (ofStep init step).Reachable (perform step state labels) := by
  induction labels generalizing state with
  | nil => exact reached
  | cons label labels ih => exact ih (ReachableVia.perform_one reached label trivial)

end System
end System

end Foundation
end Rfofs
