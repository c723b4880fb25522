import Rfofs.Engine.Process
import Rfofs.Foundation.ReleaseAcquire

namespace Rfofs
namespace Control

open Foundation
open Engine (ClockMode)

/-!
# Creating the segment and attaching to it

A server creates the shared memory segment and a client attaches to it, both through
one name that the operating system keeps.  Any number of servers and clients, one call
of `create` or of `attach` each, take their steps in any order; every call of the
operating system may be refused, and a process that dies takes no further steps.

The words of a new segment are zero.  Its creator stores them relaxed and `ready` last
with release; a client polls `ready` with acquire and loads the other words relaxed,
on memory where a load may return an old value.  Between the creation of a segment and
its `ftruncate` it has no pages, and a load there is a bus error.
-/

/-- The words of the control block that `create` stores.  The rings behind them are not part
of the handshake. -/
inductive ControlWord where
  | magic
  | version
  | ready
  | sampleRateBits
  | blockSize
  | clockMode
  | statsEnabled
  deriving DecidableEq

/-- A process that has a segment mapped.  Each has a view of its own. -/
inductive Party (ι κ : Type*) where
  | server (i : ι)
  | client (k : κ)
  deriving DecidableEq

/-- All words are atomic: there are no plain locations. -/
abbrev SegmentMemory (ι κ : Type*) := Memory ControlWord (Party ι κ) Empty Nat Unit

/-- A segment that was created.  It outlives its name.  The last field is the observer's: the
clock modes that clients have stored. -/
structure Segment (ι κ : Type*) where
  creator : ι
  sized : Bool
  memory : SegmentMemory ι κ
  modes : List Nat

namespace SharedControlBlock

def magic : Nat := 0x52464F46535F4331

def version : Nat := 1

end SharedControlBlock

/-- The arguments of `create`, and whether the server was built with statistics. -/
structure CreateArgs where
  sampleRateBits : Nat
  blockSize : Nat
  clockMode : ClockMode
  statistics : Bool

namespace CreateArgs

variable (args : CreateArgs)

def statsEnabled : Nat := if args.statistics then 1 else 0

/-- The stores of `create`, in their order.  Only the last one, of `ready`, is a release. -/
def stores : List (ControlWord × StoreOrder × Nat) :=
  [(.magic, .relaxed, SharedControlBlock.magic),
    (.version, .relaxed, SharedControlBlock.version),
    (.sampleRateBits, .relaxed, args.sampleRateBits),
    (.blockSize, .relaxed, args.blockSize),
    (.clockMode, .relaxed, args.clockMode.asU32),
    (.statsEnabled, .relaxed, args.statsEnabled),
    (.ready, .release, 1)]

/-- The values that a word may have once it is stored, where clients have switched to some
clock modes.  Nobody changes another word. -/
def Allows (modes : List Nat) : ControlWord → Nat → Prop
  | .magic, value => value = SharedControlBlock.magic
  | .version, value => value = SharedControlBlock.version
  | .ready, value => value = 1
  | .sampleRateBits, value => value = args.sampleRateBits
  | .blockSize, value => value = args.blockSize
  | .clockMode, value => value = args.clockMode.asU32 ∨ value ∈ modes
  | .statsEnabled, value => value = args.statsEnabled

theorem allows_stores (modes : List Nat) {entry : ControlWord × StoreOrder × Nat}
    (listed : entry ∈ args.stores) : args.Allows modes entry.1 entry.2.2 := by
  simp only [stores, List.mem_cons, List.not_mem_nil, or_false] at listed
  rcases listed with rfl | rfl | rfl | rfl | rfl | rfl | rfl
  case inr.inr.inr.inr.inl => exact Or.inl rfl
  all_goals rfl

/-- What is allowed stays allowed when a client switches the clock mode. -/
theorem Allows.switch {args : CreateArgs} {modes : List Nat} {a : ControlWord} {value : Nat}
    (allowed : args.Allows modes a value) (mode : Nat) : args.Allows (modes ++ [mode]) a value := by
  cases a with
  | clockMode => exact allowed.imp id (fun member => List.mem_append_left _ member)
  | magic | version | ready | sampleRateBits | blockSize | statsEnabled => exact allowed

/-- Every word is stored, and `ready` only after all others. -/
theorem stores_split {done rest : List (ControlWord × StoreOrder × Nat)} {order : StoreOrder} {value : Nat}
    (split : done ++ (.ready, order, value) :: rest = args.stores) :
    rest = [] ∧ order = .release ∧ ∀ a, a ≠ .ready → ∃ entry ∈ done, entry.1 = a := by
  have before : ∀ entry ∈ args.stores.take 6, entry.1 ≠ .ready := by
    simp [stores]
  have all : ∀ a, a ≠ .ready → ∃ entry ∈ args.stores.take 6, entry.1 = a := by
    intro a different
    cases a <;> first | exact absurd rfl different | simp [stores]
  have whole : args.stores = args.stores.take 6 ++ [(.ready, .release, 1)] := rfl
  rw [whole] at split
  rcases List.append_eq_append_iff.mp split with ⟨middle, front, back⟩ | ⟨middle, front, back⟩
  · cases middle with
    | nil =>
        rw [List.nil_append] at back
        cases back
        rw [List.append_nil] at front
        exact ⟨rfl, rfl, front ▸ all⟩
    | cons entry middle =>
        rw [List.cons_append] at back
        have same := List.head_eq_of_cons_eq back
        refine absurd ?_ (before entry ?_)
        · rw [← same]
        · rw [front]
          exact List.mem_append_right _ List.mem_cons_self
  · cases middle with
    | nil =>
        rw [List.nil_append] at back
        cases back
        rw [List.append_nil] at front
        exact ⟨rfl, rfl, front ▸ all⟩
    | cons entry middle =>
        have lengths := congrArg List.length back
        simp at lengths

end CreateArgs

/-- What `create` has come to.  `taken` is the answer `EEXIST`, and a server that has
nothing left to store has returned. -/
inductive ServerPc where
  | start
  | taken
  | unlinked
  | opened (g : Nat)
  | truncated (g : Nat)
  | storing (g : Nat) (rest : List (ControlWord × StoreOrder × Nat))
  | failed (errno : Nat)

inductive AttachError where
  | notRunning (errno : Nat)
  | notReady
  | versionMismatch
  | mmap (errno : Nat)
  deriving DecidableEq

/-- What `attach` has come to.  A client that has returned is attached, or has failed with the
error that is kept. -/
inductive ClientPc where
  | start
  | opened (g : Nat)
  | polling (g left : Nat)
  | readied (g : Nat)
  | checked (g : Nat)
  | attached (g : Nat)
  | failed (error : AttachError)
  | busError (g : Nat)
  deriving DecidableEq

/-- The name, all segments that were ever created, and the processes.  A segment that lost its
name goes on living in the processes that have it mapped. -/
structure Handshake (ι κ : Type*) where
  name : Option Nat
  segments : List (Segment ι κ)
  servers : ι → ServerPc
  clients : κ → ClientPc

/-- One step.  A call of the operating system is given the error with which it is
refused, and a load the message that it reads. -/
inductive HandshakeStep (ι κ : Type*) where
  | serverOpen (i : ι) (refused : Option Nat)
  | serverUnlink (i : ι) (refused : Option Nat)
  | serverReopen (i : ι) (refused : Option Nat)
  | serverTruncate (i : ι) (refused : Option Nat)
  | serverMap (i : ι) (refused : Option Nat)
  | serverStore (i : ι)
  | serverLoad (i : ι) (a : ControlWord) (message : Nat)
  | clientOpen (k : κ) (refused : Option Nat)
  | clientMap (k : κ) (refused : Option Nat)
  | clientPoll (k : κ) (message : Nat)
  | clientMagic (k : κ) (message : Nat)
  | clientVersion (k : κ) (message : Nat)
  | clientLoad (k : κ) (a : ControlWord) (message : Nat)
  | setClockMode (k : κ) (mode : Nat)

def enoent : Nat := 2

def eexist : Nat := 17

/-- The pages of a new segment.  Their messages carry no view, as nobody has stored them. -/
def zeroed (ι κ : Type*) : SegmentMemory ι κ where
  history := fun _ => [⟨0, View.bottom⟩]
  cells := Empty.rec
  views := fun _ => View.bottom

namespace Handshake

variable {ι κ : Type*}

section Step

variable [DecidableEq ι] [DecidableEq κ] (s : Handshake ι κ)

def setServer (i : ι) (pc : ServerPc) : Handshake ι κ :=
  { s with servers := Function.update s.servers i pc }

def setClient (k : κ) (pc : ClientPc) : Handshake ι κ :=
  { s with clients := Function.update s.clients k pc }

omit [DecidableEq ι] [DecidableEq κ] in
/-- Give a segment another state. -/
def setSegment (g : Nat) (segment : Segment ι κ) : Handshake ι κ :=
  { s with segments := s.segments.set g segment }

/-- `shm_open` with `O_CREAT` and `O_EXCL`.  It fails where the name exists, or with another
error of the system. -/
def openExclusive (i : ι) (refused : Option Nat) : Except Nat (Handshake ι κ) :=
  match refused, s.name with
  | some errno, _ => .error errno
  | none, some _ => .error eexist
  | none, none =>
      .ok { s with
        name := some s.segments.length
        segments := s.segments ++ [⟨i, false, zeroed ι κ, []⟩]
        servers := Function.update s.servers i (.opened s.segments.length) }

/-- A load from a mapped segment: the value, and the segment after it.  It may return any
message that the view of the process does not exclude. -/
def loadFrom (p : Party ι κ) (g : Nat) (a : ControlWord) (order : LoadOrder) (message : Nat) :
    Option (Nat × Handshake ι κ) :=
  s.segments[g]?.bind (fun segment =>
    (segment.memory.load p a order message).map (fun loaded =>
      (loaded.1, s.setSegment g { segment with memory := loaded.2 })))

/-- One poll, with `left` polls behind it.  A client that runs out of polls gives up. -/
def poll (k : κ) (g left message : Nat) : Option (Handshake ι κ) :=
  (s.loadFrom (.client k) g .ready .acquire message).map (fun loaded =>
    if loaded.1 = 1 then loaded.2.setClient k (.readied g)
    else if left = 0 then loaded.2.setClient k (.failed .notReady)
    else loaded.2.setClient k (.polling g left))

/-! ### The steps of `ServerShm::create` -/

def serverOpen (i : ι) (refused : Option Nat) : Option (Handshake ι κ) :=
  match s.servers i, s.openExclusive i refused with
  | .start, .ok next => some next
  | .start, .error errno =>
      some (s.setServer i (if errno = eexist then .taken else .failed errno))
  | _, _ => none

/-- `shm_unlink`, whose result the server does not look at. -/
def serverUnlink (i : ι) (refused : Option Nat) : Option (Handshake ι κ) :=
  match s.servers i, refused with
  | .taken, some _ => some (s.setServer i .unlinked)
  | .taken, none => some { s.setServer i .unlinked with name := none }
  | _, _ => none

def serverReopen (i : ι) (refused : Option Nat) : Option (Handshake ι κ) :=
  match s.servers i, s.openExclusive i refused with
  | .unlinked, .ok next => some next
  | .unlinked, .error errno => some (s.setServer i (.failed errno))
  | _, _ => none

def serverTruncate (i : ι) (refused : Option Nat) : Option (Handshake ι κ) :=
  match s.servers i, refused with
  | .opened _, some errno => some (s.setServer i (.failed errno))
  | .opened g, none =>
      s.segments[g]?.map (fun segment =>
        (s.setSegment g { segment with sized := true }).setServer i (.truncated g))
  | _, _ => none

def serverMap (args : ι → CreateArgs) (i : ι) (refused : Option Nat) : Option (Handshake ι κ) :=
  match s.servers i, refused with
  | .truncated _, some errno => some (s.setServer i (.failed errno))
  | .truncated g, none => some (s.setServer i (.storing g (args i).stores))
  | _, _ => none

def serverStore (i : ι) : Option (Handshake ι κ) :=
  match s.servers i with
  | .storing g ((a, order, value) :: rest) =>
      s.segments[g]?.map (fun segment =>
        (s.setSegment g { segment with
          memory := segment.memory.store (.server i) a order value }).setServer i
            (.storing g rest))
  | _ => none

/-- A load of the server, whose `create` has returned. -/
def serverLoad (i : ι) (a : ControlWord) (message : Nat) : Option (Handshake ι κ) :=
  match s.servers i with
  | .storing g [] => (s.loadFrom (.server i) g a .relaxed message).map Prod.snd
  | _ => none

/-! ### The steps of `ClientShm::attach` -/

def clientOpen (k : κ) (refused : Option Nat) : Option (Handshake ι κ) :=
  match s.clients k, refused, s.name with
  | .start, some errno, _ => some (s.setClient k (.failed (.notRunning errno)))
  | .start, none, none => some (s.setClient k (.failed (.notRunning enoent)))
  | .start, none, some g => some (s.setClient k (.opened g))
  | _, _, _ => none

def clientMap (k : κ) (refused : Option Nat) : Option (Handshake ι κ) :=
  match s.clients k, refused with
  | .opened _, some errno => some (s.setClient k (.failed (.mmap errno)))
  | .opened g, none => some (s.setClient k (.polling g 100))
  | _, _ => none

def clientPoll (k : κ) (message : Nat) : Option (Handshake ι κ) :=
  match s.clients k with
  | .polling g (left + 1) =>
      s.segments[g]?.bind (fun segment =>
        if segment.sized then s.poll k g left message
        else some (s.setClient k (.busError g)))
  | _ => none

def clientMagic (k : κ) (message : Nat) : Option (Handshake ι κ) :=
  match s.clients k with
  | .readied g =>
      (s.loadFrom (.client k) g .magic .relaxed message).map (fun loaded =>
        if loaded.1 = SharedControlBlock.magic then loaded.2.setClient k (.checked g)
        else loaded.2.setClient k (.failed .versionMismatch))
  | _ => none

def clientVersion (k : κ) (message : Nat) : Option (Handshake ι κ) :=
  match s.clients k with
  | .checked g =>
      (s.loadFrom (.client k) g .version .relaxed message).map (fun loaded =>
        if loaded.1 = SharedControlBlock.version then loaded.2.setClient k (.attached g)
        else loaded.2.setClient k (.failed .versionMismatch))
  | _ => none

/-- A load of an attached client. -/
def clientLoad (k : κ) (a : ControlWord) (message : Nat) : Option (Handshake ι κ) :=
  match s.clients k with
  | .attached g => (s.loadFrom (.client k) g a .relaxed message).map Prod.snd
  | _ => none

omit [DecidableEq ι] [DecidableEq κ] in
/-- `set_clock_mode` of an attached client.  Several clients store here; none of their
views is raised, which leaves their loads more freedom than they have. -/
def setClockMode (k : κ) (mode : Nat) : Option (Handshake ι κ) :=
  match s.clients k with
  | .attached g =>
      if (ClockMode.fromU32 mode).isNone then
        some s
      else
        s.segments[g]?.map (fun segment => s.setSegment g { segment with
          memory := segment.memory.append .clockMode ⟨mode, View.bottom⟩
          modes := segment.modes ++ [mode] })
  | _ => none

/-- One step, if its process is ready for it.  A failing system call is a step as well. -/
def step (args : ι → CreateArgs) : HandshakeStep ι κ → Option (Handshake ι κ)
  | .serverOpen i refused => s.serverOpen i refused
  | .serverUnlink i refused => s.serverUnlink i refused
  | .serverReopen i refused => s.serverReopen i refused
  | .serverTruncate i refused => s.serverTruncate i refused
  | .serverMap i refused => s.serverMap args i refused
  | .serverStore i => s.serverStore i
  | .serverLoad i a message => s.serverLoad i a message
  | .clientOpen k refused => s.clientOpen k refused
  | .clientMap k refused => s.clientMap k refused
  | .clientPoll k message => s.clientPoll k message
  | .clientMagic k message => s.clientMagic k message
  | .clientVersion k message => s.clientVersion k message
  | .clientLoad k a message => s.clientLoad k a message
  | .setClockMode k mode => s.setClockMode k mode

end Step

end Handshake

end Control
end Rfofs
