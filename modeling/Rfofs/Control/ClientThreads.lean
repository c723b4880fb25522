import Rfofs.Control.Ring
import Rfofs.Grain.Params

namespace Rfofs
namespace Control

open Foundation
open Grain

/-!
# Threads that share one client handle

`rfofs_add_fof` is one `tryPush` on the shared ring.  A lone caller is covered by
the ring; with several callers a push is four accesses that others may interrupt.
Two calls that load the same tail write the same slot, and both return zero.

What remains true is stated for runs in which writes are exclusive: every accepted
request is popped exactly once, in the order of acceptance.  The run at the end of
the module leaves this discipline and loses a request.
-/

variable {R ι : Type*}

/-- The return code of `rfofs_add_fof` with a valid handle: zero, or minus two at a full ring. -/
def rfofsAddFof : RingAnswer (FofParams R) → Option Int
  | .pushOk _ => some 0
  | .pushErr _ => some (-2)
  | _ => none

/-- The ring of requests, shared by the threads `ι` of one client.  The threads have no lock
between them. -/
abbrev FofRing (ι R : Type*) := RingState fofCap ι (FofParams R)

/-- A request joins the accepted ones exactly when its call returns zero.  It is the store of
the tail that makes it visible. -/
theorem accepted_iff_code_zero [DecidableEq ι] {s next : FofRing ι R}
    {label : RingAccess ι (FofParams R)} {answer : Option (RingAnswer (FofParams R))}
    (taken : s.access label = some (next, answer)) :
    (∃ params, next.pushed = s.pushed ++ [params]) ↔ answer.bind rfofsAddFof = some 0 := by
  cases RingState.does_of_access taken with
  | publish i params => exact ⟨fun _ => rfl, fun _ => ⟨params, rfl⟩⟩
  | refuse | loadTail | check | write | loadHead | miss | find | read | release =>
      simp [rfofsAddFof]

/-- No call is in progress and the server has found the ring empty. -/
def Quiescent (s : FofRing ι R) : Prop :=
  (∀ i, s.producers i = .idle) ∧ s.consumer = .idle ∧ s.head = s.tail

/-- Nothing is popped that was not accepted, and once the ring is drained every
accepted request has been popped exactly once. -/
structure Delivers (s : FofRing ι R) : Prop where
  genuine : s.popped.Subperm s.pushed
  complete : Quiescent s → s.popped.Perm s.pushed

/-- One undisturbed call of `tryPop`. -/
def popCall : List (RingAccess ι (FofParams R)) :=
  [.popLoadHead, .popLoadTail, .popRead, .popStore]

section Draining

variable [DecidableEq ι] {base : Nat} {s : FofRing ι R}

theorem perform_popCall (waiting : s.consumer = .idle) (different : s.head ≠ s.tail) :
    perform ringStep s popCall = { s with
      head := wrappingAdd 64 s.head 1
      consumer := .idle
      popped := s.popped ++ [s.slots (fofCap.index s.head)] } := by
  simp [perform, ringStep, popCall, RingState.access, waiting, different]

/-- A call of `tryPop` on a ring that is not empty takes its oldest item. -/
theorem pop_oldest (inv : RingInvariant base s) (waiting : s.consumer = .idle)
    {item : FofParams R} {rest : List (FofParams R)} (held : s.contents = item :: rest) :
    RingInvariant base (perform ringStep s popCall) ∧ (perform ringStep s popCall).consumer = .idle ∧
      (perform ringStep s popCall).pushed = s.pushed ∧ (perform ringStep s popCall).contents = rest := by
  have longer : s.popped.length < s.pushed.length := by
    have size := s.contents_length
    rw [held, List.length_cons] at size
    omega
  have different : s.head ≠ s.tail := fun same =>
    absurd (inv.head_eq_tail_iff.mp same) (Nat.ne_of_lt longer)
  have found : s.pushed[s.popped.length]? = some (s.slots (fofCap.index s.head)) := by
    rw [inv.head_index]
    exact inv.content _ (Nat.le_refl _) longer
  have ready : RingInvariant base
      { s with consumer := .read s.head (s.slots (fofCap.index s.head)) } :=
    inv.moveConsumer ⟨rfl, found⟩
  rw [perform_popCall waiting different]
  refine ⟨ready.popStore rfl, rfl, rfl, ?_⟩
  change s.pushed.drop (s.popped ++ [_]).length = rest
  change s.pushed.drop s.popped.length = item :: rest at held
  rw [List.length_append, List.length_singleton, ← List.drop_drop, held, List.drop_one,
    List.tail_cons]

/-- As many calls as there are items empty the ring: then everything that was pushed has been
popped, in its order. -/
theorem drain_pops_rest (inv : RingInvariant base s) (waiting : s.consumer = .idle) :
    (perform ringStep s (List.replicate s.contents.length popCall).flatten).popped = s.pushed := by
  induction held : s.contents generalizing s with
  | nil =>
      have whole := inv.popped_append_contents
      rw [held, List.append_nil] at whole
      exact whole
  | cons item rest ih =>
      rcases pop_oldest inv waiting held with ⟨nextInv, nextWaiting, samePushed, nextHeld⟩
      have later := ih nextInv nextWaiting nextHeld
      rw [List.length_cons, List.replicate_succ, List.flatten_cons, perform,
        List.foldl_append]
      rw [samePushed] at later
      exact later

end Draining

/-- In every run whose slot writes are exclusive, the popped requests are a prefix
of the accepted ones, an emptied ring has delivered all of them, and the server
empties it by calling `tryPop`. -/
theorem exclusive_writes_deliver [DecidableEq ι] (base : Nat) (s : FofRing ι R)
    (reached :
      (ringSystem fofCap ι (FofParams R) base).ReachableVia RingState.ExclusiveWrite s) :
    Delivers s ∧ s.popped <+: s.pushed ∧
      (s.consumer = .idle →
        (perform ringStep s (List.replicate s.contents.length popCall).flatten).popped = s.pushed) := by
  have inv := RingInvariant.reachable reached
  refine ⟨⟨inv.delivered.sublist.subperm, ?_⟩, inv.delivered, drain_pops_rest inv⟩
  rintro ⟨_, _, empty⟩
  have same := inv.head_eq_tail_iff.mp empty
  exact List.Perm.of_eq (inv.delivered.eq_of_length same)

/-- A second thread looks at the ring while the first one pushes. -/
theorem exclusive_writes_deliver_two_threads :
    let s : FofRing Bool Nat := perform ringStep (ringStart fofCap Bool 0 (.onset 0))
      [.pushLoadTail false (.onset 1), .pushLoadTail true (.onset 2), .pushLoadHead false,
        .pushWrite false, .pushStore false]
    Delivers s ∧ s.popped <+: s.pushed ∧
      (s.consumer = .idle →
        (perform ringStep s (List.replicate s.contents.length popCall).flatten).popped = s.pushed) := by
  apply exclusive_writes_deliver 0
  have started : (ringSystem fofCap Bool (FofParams Nat) 0).ReachableVia
      RingState.ExclusiveWrite (ringStart fofCap Bool 0 (.onset 0)) :=
    .init ⟨by decide, rfl, rfl, fun _ => rfl, rfl, rfl, rfl⟩
  have loaded := started.perform_one (.pushLoadTail false (.onset 1)) trivial
  have looked := loaded.perform_one (.pushLoadTail true (.onset 2)) trivial
  have checked := looked.perform_one (.pushLoadHead false) trivial
  have wrote := checked.perform_one (.pushWrite false) ?_
  · exact wrote.perform_one (.pushStore false) trivial
  refine ⟨?_, ?_⟩
  · rintro item tail seen ⟨⟩
    rfl
  · rintro j different ⟨item, tail, seen, wrote⟩
    cases j with
    | false => exact different rfl
    | true => cases wrote

/-- Two threads load the tail before either of them stores it.  Both return zero;
the second write replaces the first, and the first request is never popped. -/
theorem overlapping_pushes_lose_a_request :
    ¬ ∀ s : FofRing Bool Nat,
      (ringSystem fofCap Bool (FofParams Nat) 0).Reachable s → Delivers s := by
  intro delivers
  let labels : List (RingAccess Bool (FofParams Nat)) :=
    [.pushLoadTail false (.onset 1), .pushLoadTail true (.onset 2), .pushLoadHead false,
      .pushLoadHead true, .pushWrite false, .pushWrite true, .pushStore false, .pushStore true]
  have delivered := delivers (perform ringStep (ringStart fofCap Bool 0 (.onset 0)) (labels ++ popCall))
    ((ringStart_reachable fofCap Bool (by decide) _).perform _)
  have quiescent : Quiescent (perform ringStep (ringStart fofCap Bool 0 (.onset 0))
      (labels ++ popCall)) := by
    refine ⟨?_, rfl, rfl⟩
    intro i
    cases i <;> rfl
  have lengths := (delivered.complete quiescent).length_eq
  revert lengths
  decide

end Control
end Rfofs
