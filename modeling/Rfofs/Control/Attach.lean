import Rfofs.Control.HandshakeSteps

namespace Rfofs
namespace Control

open Foundation
open Engine (ClockMode)

/-!
# Attached clients

In every run, a client that has attached is on a segment that its creator has completed, and
the words that it loads there are the ones that were stored, although loads may return old
values and other servers may take the name over.
-/

/-! ## Runs -/

section Runs

variable {ι κ : Type*} [DecidableEq ι] [DecidableEq κ]

/-- Servers and clients that have not begun.  A name that is left over belongs to a
server of the run that has died. -/
def handshakeStart (ι κ : Type*) : Handshake ι κ where
  name := none
  segments := []
  servers := fun _ => .start
  clients := fun _ => .start

/-- Any number of servers and clients, each taking its own steps, with the results of the
system calls chosen by the environment. -/
def handshakeSystem (args : ι → CreateArgs) : System (Handshake ι κ) (HandshakeStep ι κ) :=
  .ofStep (fun s => s = handshakeStart ι κ) (fun s label => s.step args label)

variable {args : ι → CreateArgs} {s : Handshake ι κ}

omit [DecidableEq ι] [DecidableEq κ] in
theorem Sane.start (args : ι → CreateArgs) : Sane args (handshakeStart ι κ) := by
  have none_left : ∀ (g : Nat) (segment : Segment ι κ),
      ¬ (handshakeStart ι κ).segments[g]? = some segment := by
    intro g segment found
    cases found
  refine ⟨fun g segment found => absurd found (none_left g segment), ?_,
    fun g segment found => absurd found (none_left g segment),
    fun g segment found => absurd found (none_left g segment), fun _ => trivial, fun _ => trivial⟩
  intro g name
  cases name

/-- By induction on the steps of any process. -/
theorem Sane.reachable (reached : (handshakeSystem args).Reachable s) : Sane args s := by
  apply reached.invariant
  · rintro _ rfl
    exact start args
  · intro s label next sane _ taken
    exact sane.step taken

/-- A word of a segment that was attached is what its creator has stored there, or a clock
mode to which a client has switched. -/
structure Attaches (args : ι → CreateArgs) (s : Handshake ι κ) : Prop where
  reads : ∀ k g, s.clients k = .attached g → ∃ segment : Segment ι κ,
    s.segments[g]? = some segment ∧ segment.sized = true ∧
      s.servers segment.creator = .storing g [] ∧
      ∀ a t value next, s.loadFrom (.client k) g a .relaxed t = some (value, next) →
        (args segment.creator).Allows segment.modes a value
  callback : ∀ i g, s.servers i = .storing g [] → ∀ t value next,
    s.loadFrom (.server i) g .clockMode .relaxed t = some (value, next) →
      ∃ mode, ClockMode.fromU32 value = some mode
  compatible : ∀ k, s.clients k ≠ .failed .versionMismatch
  owned : ∀ i j g rest others, s.servers i = .storing g rest → s.servers j = .storing g others →
    i = j
  crashes : ∀ k t g next, s.step args (.clientPoll k t) = some next →
    next.clients k = .busError g →
      s.clients k = .polling g 100 ∧ ∃ segment : Segment ι κ, s.segments[g]? = some segment ∧
        segment.sized = false ∧ (s.servers segment.creator).Unsized g

omit [DecidableEq ι] [DecidableEq κ] in
/-- A view that has seen `ready` stored belongs to a segment whose creator has returned.  The
store of `ready` is the last one of `create`. -/
theorem Sane.creator_returned (sane : Sane args s) {k : κ} {g : Nat}
    (ready : Ready k g s.segments) : ∃ segment : Segment ι κ, s.segments[g]? = some segment ∧
      segment.sized = true ∧ s.servers segment.creator = .storing g [] := by
  rcases ready with ⟨segment, found, sized, complete⟩
  refine ⟨segment, found, sized, sane.finished g segment found ?_⟩
  exact Nat.lt_of_le_of_lt (complete .ready)
    (((sane.sound g segment found).coherent.parties (.client k)).stamp .ready)

/-- Clients attach to segments that their creator has completed, and load there what it
has stored or a client has switched the clock mode to, on memory that may return old values
and under every interleaving with servers that take the name over. -/
theorem handshake_attaches (args : ι → CreateArgs) (s : Handshake ι κ)
    (reached : (handshakeSystem args).Reachable s) : Attaches args s := by
  have sane := Sane.reachable reached
  refine ⟨?_, ?_, ?_, ?_, ?_⟩
  · intro k g at_pc
    have holds := sane.clients k
    rw [at_pc] at holds
    rcases sane.creator_returned holds with ⟨segment, found, sized, returned⟩
    refine ⟨segment, found, sized, returned, fun a t value next loaded => ?_⟩
    rcases sane.loadReady holds loaded with ⟨_, _, other, listed, allowed⟩
    rw [found] at listed
    cases listed
    exact allowed
  · intro i g at_pc t value next loaded
    have holds := sane.servers i
    rw [at_pc] at holds
    rcases holds with ⟨segment, found, rfl, _, done, split, seen⟩
    rcases sane.loadFrom loaded with ⟨_, _, other, memory, listed, read, _⟩
    rw [found] at listed
    cases listed
    rw [List.append_nil] at split
    have stored : (.clockMode, .relaxed, (args segment.creator).clockMode.asU32) ∈ done := by
      rw [split]
      simp [CreateArgs.stores]
    rcases ((sane.sound g segment found).load read).2 (seen _ stored) with rfl | member
    · exact ⟨_, (args segment.creator).clockMode.fromU32_asU32⟩
    · exact (sane.sound g segment found).named value member
  · intro k failed
    have holds := sane.clients k
    rw [failed] at holds
    exact holds
  · intro i j g rest others first second
    have mine := sane.servers i
    have yours := sane.servers j
    rw [first] at mine
    rw [second] at yours
    rcases mine with ⟨segment, found, created, _⟩
    rcases yours with ⟨other, listed, same, _⟩
    rw [found] at listed
    cases listed
    exact created.symm.trans same
  · intro k t g next taken crashed
    simp only [Handshake.step, Handshake.clientPoll] at taken
    split at taken
    · rename_i h left at_pc
      have holds := sane.clients k
      rw [at_pc] at holds
      rcases holds with ⟨bounded, segment, found, polled⟩
      rw [found, Option.bind_some] at taken
      split at taken
      · rcases Option.map_eq_some_iff.mp taken with ⟨⟨value, later⟩, _, rfl⟩
        dsimp only at crashed
        have pcs : ∀ pc, (later.setClient k pc).clients k = pc :=
          fun pc => Function.update_self ..
        split at crashed
        · rw [pcs] at crashed
          cases crashed
        · split at crashed <;> rw [pcs] at crashed <;> cases crashed
      · rename_i small
        have unsized : segment.sized = false := Bool.eq_false_iff.mpr small
        cases taken
        have same : ClientPc.busError h = .busError g :=
          (Function.update_self k _ s.clients).symm.trans crashed
        cases same
        have first : left.succ = 100 := by
          by_contra later
          exact small (polled (by omega))
        rw [first] at at_pc
        exact ⟨at_pc, segment, found, unsized, sane.unsized g segment found unsized⟩
    · cases taken

/-- A client that attaches to the segment of a first server while a second one takes the
name over. -/
def takeover : List (HandshakeStep Bool Unit) :=
  [.serverOpen true none, .serverTruncate true none, .serverMap true none, .serverStore true,
    .serverStore true, .serverStore true, .serverStore true, .serverStore true, .serverStore true,
    .clientOpen () none, .clientMap () none, .clientPoll () 0, .serverOpen false none,
    .serverUnlink false none, .serverStore true, .serverReopen false none, .clientPoll () 1,
    .clientMagic () 1, .clientVersion () 1]

/-- The state after this run.  The client is attached to the segment of the second server. -/
def takenOver : Handshake Bool Unit :=
  perform (fun s label => s.step (fun _ => ⟨48000, 256, .jackFrameTime, true⟩) label)
    (handshakeStart Bool Unit) takeover

theorem takenOver_reachable :
    (handshakeSystem (fun _ : Bool => ⟨48000, 256, .jackFrameTime, true⟩)).Reachable
      takenOver := by
  have started : (handshakeSystem (fun _ : Bool =>
      ⟨48000, 256, .jackFrameTime, true⟩)).Reachable (handshakeStart Bool Unit) := .init rfl
  exact started.perform _

theorem handshake_attaches_takenOver :
    Attaches (fun _ => ⟨48000, 256, .jackFrameTime, true⟩) takenOver ∧
      takenOver.clients () = .attached 0 ∧ takenOver.name = some 1 :=
  ⟨handshake_attaches _ _ takenOver_reachable, by decide +kernel, by decide +kernel⟩

end Runs

end Control
end Rfofs
