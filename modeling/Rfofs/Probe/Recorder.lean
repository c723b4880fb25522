import Rfofs.Foundation.BoundedFifo
import Rfofs.Foundation.Transition
import Rfofs.Probe.Writer

namespace Rfofs
namespace Probe

open Foundation

/-!
# The recorder of the probe

Three parties run at once.  The process callback pushes whole frames into the ring, or
counts a frame that does not fit.  The writer pops samples; after a pop that fails it
loads the shutdown flag and leaves its loop when the flag is set.  The main thread
deactivates the client, which waits for the callback to return, and then stores the flag.

A ring that is full for one sample of a frame would be found full before its first one,
because nobody else pushes, so no frame is torn.  But the failed pop and the load are two
steps.  Frames that arrive between them, before the client is deactivated and the flag is
stored, stay in the ring.
-/

/-- Where the callback stands: between two calls, before a frame, or inside one. -/
inductive CallbackPc (n : Nat) (X : Type*) where
  | idle
  | frames (rest : List (Fin n → X))
  | pushing (samples : List X) (rest : List (Fin n → X))

/-- Where the writer stands in its loop: before a pop, behind a failed pop, or outside. -/
inductive WriterPc where
  | popping
  | checking
  | exited
  deriving DecidableEq, Repr

/-- How far the main thread has come. -/
inductive MainPc where
  | opened
  | recording
  | deactivated
  | stopped
  deriving DecidableEq, Repr

/-- The samples of an accepted frame that are still to be pushed. -/
def CallbackPc.pending {n : Nat} {X : Type*} : CallbackPc n X → List X
  | .pushing samples _ => samples
  | _ => []

/-- The shared ring and flag and the state of each party.  The accepted frames are the
observer's. -/
structure Recorder (n : Nat) (X Y : Type*) where
  ring : BoundedFifo X
  droppedFrames : Nat
  shutdown : Bool
  callback : CallbackPc n X
  writer : WriterPc
  locals : Writer n X Y
  main : MainPc
  accepted : List (Fin n → X)

/-- A step of a party; the server calls the callback with the frames of a period. -/
inductive RecorderStep (n : Nat) (X : Type*) where
  | process (frames : List (Fin n → X))
  | callback
  | writer
  | main

variable {X Y : Type*}

namespace Recorder

variable {n : Nat}

/-- The ring is created and the writer is spawned before the client is activated. -/
def start [Zero X] [Zero Y] (config : ProbeConfig) : Recorder config.nChannels X Y where
  ring := BoundedFifo.empty config.ringCapacity
  droppedFrames := 0
  shutdown := false
  callback := .idle
  writer := .popping
  locals := Writer.start config
  main := .opened
  accepted := []

/-- The server calls the callback of an active client, one call at a time. -/
def process (s : Recorder n X Y) (frames : List (Fin n → X)) : Option (Recorder n X Y) :=
  match s.main, s.callback with
  | .recording, .idle => some { s with callback := .frames frames }
  | _, _ => none

/-- A frame that has been checked for is pushed as a whole.  Only the callback pushes, so the
room that it has found stays. -/
def callbackStep (s : Recorder n X Y) : Option (Recorder n X Y) :=
  match s.callback with
  | .idle => none
  | .frames [] => some { s with callback := .idle }
  | .frames (frame :: rest) =>
      if s.ring.capacity - s.ring.items.length < n then
        some { s with droppedFrames := s.droppedFrames + 1, callback := .frames rest }
      else
        some { s with
          callback := .pushing (List.ofFn frame) rest
          accepted := s.accepted ++ [frame] }
  | .pushing [] rest => some { s with callback := .frames rest }
  | .pushing (sample :: samples) rest =>
      match s.ring.push sample with
      | .ok ring => some { s with ring := ring, callback := .pushing samples rest }
      | .error _ => some { s with callback := .pushing samples rest }

/-- Pop a sample, load the flag after a failed pop, or nothing once the loop is left.  Between
the failed pop and the load the other parties may take steps. -/
def writerStep [Add Y] [Mul Y] (config : ProbeConfig) (asF64 : X → Y)
    (s : Recorder config.nChannels X Y) : Option (Recorder config.nChannels X Y) :=
  match s.writer with
  | .popping =>
      match s.ring.pop with
      | some (sample, ring) =>
          some { s with ring := ring, locals := s.locals.takeSample config asF64 sample }
      | none => some { s with writer := .checking }
  | .checking =>
      if s.shutdown then
        some { s with writer := .exited, locals := s.locals.finish }
      else
        some { s with writer := .popping }
  | .exited => none

/-- Activate the client, deactivate it when its callback is not running, store the flag. -/
def mainStep (s : Recorder n X Y) : Option (Recorder n X Y) :=
  match s.main, s.callback with
  | .opened, _ => some { s with main := .recording }
  | .recording, .idle => some { s with main := .deactivated }
  | .deactivated, _ => some { s with main := .stopped, shutdown := true }
  | _, _ => none

def step [Add Y] [Mul Y] (config : ProbeConfig) (asF64 : X → Y)
    (s : Recorder config.nChannels X Y) :
    RecorderStep config.nChannels X → Option (Recorder config.nChannels X Y)
  | .process frames => s.process frames
  | .callback => s.callbackStep
  | .writer => s.writerStep config asF64
  | .main => s.mainStep

end Recorder

/-- The recorder with its three parties, from the start. -/
def recorderSystem [Zero X] [Zero Y] [Add Y] [Mul Y] (config : ProbeConfig) (asF64 : X → Y) :
    System (Recorder config.nChannels X Y) (RecorderStep config.nChannels X) :=
  .ofStep (fun s => s = .start config) (Recorder.step config asF64)

/-- The results of the writer are those of the accepted frames: the file, the number of
frames, and the squares of each channel. -/
structure Lossless [Zero Y] [Add Y] [Mul Y] (config : ProbeConfig) (asF64 : X → Y)
    (s : Recorder config.nChannels X Y) : Prop where
  written : s.locals.snd = Writer.file config.output (interleaved s.accepted)
  sumSq : ∀ ch, s.locals.sumSq ch = sumOfSquares asF64 (s.accepted.map (fun frame => frame ch))
  frameCount : s.locals.frameCount = s.accepted.length

/-- When the writer sees the flag set, the ring is as empty as its last pop found it. -/
def StillEmpty {n : Nat} (s : Recorder n X Y) : RecorderStep n X → Prop
  | .writer => s.writer = .checking → s.shutdown = true → s.ring.items = []
  | _ => True

/-! ## What every run keeps -/

/-- Where the samples of the accepted frames are, when these have been popped.  They are
popped, in the ring, or in the hand of the callback. -/
structure Intact [Zero Y] [Add Y] [Mul Y] (config : ProbeConfig) (asF64 : X → Y)
    (popped : List X) (s : Recorder config.nChannels X Y) : Prop where
  stream : popped ++ (s.ring.items ++ s.callback.pending) = interleaved s.accepted
  room : s.ring.items.length + s.callback.pending.length ≤ s.ring.capacity
  heard : ∃ w, Heard config asF64 popped w ∧
    s.locals = if s.writer = .exited then w.finish else w
  quiet : s.main ≠ .recording → s.callback = .idle
  stopped : s.shutdown = true → s.main = .stopped
  flagged : s.writer = .exited → s.shutdown = true

namespace Intact

variable [Zero Y] [Add Y] [Mul Y] {config : ProbeConfig} {asF64 : X → Y} {popped : List X}
  {s next : Recorder config.nChannels X Y}

theorem start [Zero X] (config : ProbeConfig) (asF64 : X → Y) :
    Intact config asF64 [] (Recorder.start config) where
  stream := rfl
  room := Nat.zero_le _
  heard := ⟨Writer.start config, Heard.start config asF64, rfl⟩
  quiet := fun _ => rfl
  stopped := nofun
  flagged := nofun

/-- While the client is active only the ring and the callback matter. -/
theorem whileRecording (intact : Intact config asF64 popped s) (recording : s.main = .recording)
    {ring : BoundedFifo X} {droppedFrames : Nat} {callback : CallbackPc config.nChannels X}
    {accepted : List (Fin config.nChannels → X)}
    (stream : popped ++ (ring.items ++ callback.pending) = interleaved accepted)
    (room : ring.items.length + callback.pending.length ≤ ring.capacity) :
    Intact config asF64 popped { s with
      ring := ring
      droppedFrames := droppedFrames
      callback := callback
      accepted := accepted } :=
  ⟨stream, room, intact.heard, fun other => absurd recording other, intact.stopped, intact.flagged⟩

theorem process (intact : Intact config asF64 popped s)
    {frames : List (Fin config.nChannels → X)} (taken : s.process frames = some next) :
    Intact config asF64 popped next := by
  unfold Recorder.process at taken
  split at taken
  · rename_i recording idle
    cases taken
    have stream := intact.stream
    have room := intact.room
    rw [idle] at stream room
    exact intact.whileRecording recording stream room
  · cases taken

theorem mainStep (intact : Intact config asF64 popped s) (taken : s.mainStep = some next) :
    Intact config asF64 popped next := by
  unfold Recorder.mainStep at taken
  split at taken
  · rename_i opened
    cases taken
    have idle := intact.quiet (by rw [opened]; decide)
    exact ⟨intact.stream, intact.room, intact.heard, fun _ => idle,
      fun flag => absurd (intact.stopped flag) (by rw [opened]; decide), intact.flagged⟩
  · rename_i recording idle
    cases taken
    exact ⟨intact.stream, intact.room, intact.heard, fun _ => idle,
      fun flag => absurd (intact.stopped flag) (by rw [recording]; decide), intact.flagged⟩
  · rename_i deactivated
    cases taken
    have idle := intact.quiet (by rw [deactivated]; decide)
    exact ⟨intact.stream, intact.room, intact.heard, fun _ => idle, fun _ => rfl, fun _ => rfl⟩
  · cases taken

/-- A frame that has been checked for is pushed as a whole. -/
theorem callbackStep (intact : Intact config asF64 popped s)
    (taken : s.callbackStep = some next) : Intact config asF64 popped next := by
  have active : s.callback ≠ .idle → s.main = .recording := by
    intro busy
    by_contra other
    exact busy (intact.quiet other)
  have stream := intact.stream
  have room := intact.room
  unfold Recorder.callbackStep at taken
  split at taken
  · cases taken
  · rename_i standing
    cases taken
    have recording := active (by rw [standing]; nofun)
    rw [standing] at stream room
    exact intact.whileRecording recording stream room
  · rename_i frame rest standing
    have recording := active (by rw [standing]; nofun)
    rw [standing] at stream room
    split at taken
    · cases taken
      exact intact.whileRecording recording stream room
    · rename_i fits
      cases taken
      apply intact.whileRecording recording
      · change popped ++ (s.ring.items ++ List.ofFn frame) = interleaved (s.accepted ++ [frame])
        change popped ++ (s.ring.items ++ []) = _ at stream
        rw [interleaved_concat, ← stream, List.append_nil, List.append_assoc]
      · change s.ring.items.length + (List.ofFn frame).length ≤ s.ring.capacity
        have bounded := s.ring.bounded
        rw [List.length_ofFn]
        omega
  · rename_i rest standing
    have recording := active (by rw [standing]; nofun)
    cases taken
    rw [standing] at stream room
    exact intact.whileRecording recording stream room
  · rename_i sample samples rest standing
    have recording := active (by rw [standing]; nofun)
    rw [standing] at stream room
    change s.ring.items.length + (samples.length + 1) ≤ s.ring.capacity at room
    rcases s.ring.push_cases sample with ⟨ring, pushed, items, capacity, _⟩ | ⟨_, full⟩
    · rw [pushed] at taken
      cases taken
      apply intact.whileRecording recording
      · change popped ++ (ring.items ++ samples) = _
        rw [items, List.append_assoc]
        exact stream
      · change ring.items.length + samples.length ≤ ring.capacity
        rw [items, capacity, List.length_append, List.length_singleton]
        omega
    · omega

/-- The writer pops the next sample, or its loop goes on, or it is left. -/
theorem writerStep (intact : Intact config asF64 popped s)
    (taken : s.writerStep config asF64 = some next) :
    ∃ more, Intact config asF64 (popped ++ more) next := by
  rcases intact.heard with ⟨w, heard, locals⟩
  unfold Recorder.writerStep at taken
  split at taken
  · rename_i popping
    rw [popping, if_neg (by decide)] at locals
    split at taken
    · rename_i sample ring found
      cases taken
      rcases BoundedFifo.pop_eq_some found with ⟨items, capacity⟩
      refine ⟨[sample], ?_, ?_, ⟨_, heard.takeSample sample, ?_⟩, intact.quiet, intact.stopped,
        intact.flagged⟩
      · have stream := intact.stream
        rw [items] at stream
        rw [List.append_assoc]
        exact stream
      · have room := intact.room
        rw [items, List.length_cons] at room
        change ring.items.length + s.callback.pending.length ≤ ring.capacity
        rw [capacity]
        omega
      · change s.locals.takeSample config asF64 sample =
          if s.writer = .exited then _ else w.takeSample config asF64 sample
        rw [popping, if_neg (by decide), locals]
    · cases taken
      refine ⟨[], ?_⟩
      rw [List.append_nil]
      exact ⟨intact.stream, intact.room, ⟨w, heard, locals⟩, intact.quiet, intact.stopped, nofun⟩
  · rename_i checking
    rw [checking, if_neg (by decide)] at locals
    refine ⟨[], ?_⟩
    rw [List.append_nil]
    split at taken
    · rename_i flag
      cases taken
      exact ⟨intact.stream, intact.room, ⟨w, heard, congrArg Writer.finish locals⟩, intact.quiet,
        intact.stopped, fun _ => flag⟩
    · cases taken
      exact ⟨intact.stream, intact.room, ⟨w, heard, locals⟩, intact.quiet, intact.stopped, nofun⟩
  · cases taken

theorem step (intact : Intact config asF64 popped s) {label : RecorderStep config.nChannels X}
    (taken : s.step config asF64 label = some next) :
    ∃ more, Intact config asF64 (popped ++ more) next := by
  cases label with
  | process frames => exact ⟨[], by rw [List.append_nil]; exact intact.process taken⟩
  | callback => exact ⟨[], by rw [List.append_nil]; exact intact.callbackStep taken⟩
  | writer => exact intact.writerStep taken
  | main => exact ⟨[], by rw [List.append_nil]; exact intact.mainStep taken⟩

theorem reachable [Zero X] {guard : Recorder config.nChannels X Y →
      RecorderStep config.nChannels X → Prop}
    (reached : (recorderSystem config asF64).ReachableVia guard s) :
    ∃ popped, Intact config asF64 popped s := by
  apply reached.invariant
  · rintro _ rfl
    exact ⟨[], start config asF64⟩
  · rintro s label next ⟨popped, intact⟩ _ taken
    rcases intact.step taken with ⟨more, nextIntact⟩
    exact ⟨popped ++ more, nextIntact⟩

/-! ## When the writer has left its loop -/

/-- The client has been deactivated before, so its callback has returned. -/
theorem idle_of_exited (intact : Intact config asF64 popped s) (exited : s.writer = .exited) :
    s.main = .stopped ∧ s.callback = .idle := by
  have stopped := intact.stopped (intact.flagged exited)
  exact ⟨stopped, intact.quiet (by rw [stopped]; decide)⟩

/-- What has not been popped is in the ring. -/
theorem stream_of_exited (intact : Intact config asF64 popped s) (exited : s.writer = .exited) :
    popped ++ s.ring.items = interleaved s.accepted := by
  have stream := intact.stream
  rw [(intact.idle_of_exited exited).2] at stream
  change popped ++ (s.ring.items ++ []) = _ at stream
  rwa [List.append_nil] at stream

/-- Nobody takes a step any more.  The results of the writer are final. -/
theorem step_of_exited (intact : Intact config asF64 popped s) (exited : s.writer = .exited)
    (label : RecorderStep config.nChannels X) : s.step config asF64 label = none := by
  rcases intact.idle_of_exited exited with ⟨stopped, idle⟩
  cases label with
  | process frames =>
      change s.process frames = none
      rw [Recorder.process, stopped]
  | callback =>
      change s.callbackStep = none
      rw [Recorder.callbackStep, idle]
  | writer =>
      change s.writerStep config asF64 = none
      rw [Recorder.writerStep, exited]
  | main =>
      change s.mainStep = none
      rw [Recorder.mainStep, stopped]

theorem running_of_step (intact : Intact config asF64 popped s)
    {label : RecorderStep config.nChannels X} (taken : s.step config asF64 label = some next) :
    s.writer ≠ .exited := by
  intro exited
  rw [intact.step_of_exited exited label] at taken
  cases taken

/-- The results are complete when nothing is left in the ring, and not otherwise: the
number of frames is too small then. -/
theorem lossless_iff (intact : Intact config asF64 popped s) (exited : s.writer = .exited) :
    Lossless config asF64 s ↔ s.ring.items = [] := by
  rcases intact.heard with ⟨w, heard, locals⟩
  rw [if_pos exited] at locals
  have stream := intact.stream_of_exited exited
  constructor
  · intro lossless
    have frames := lossless.frameCount
    have length := congrArg List.length stream
    rw [locals, Writer.finish_frameCount, heard.frameCount] at frames
    rw [List.length_append, interleaved_length, ← frames] at length
    have whole := Nat.div_mul_le_self popped.length config.nChannels
    exact List.eq_nil_of_length_eq_zero (by omega)
  · intro empty
    rw [empty, List.append_nil] at stream
    rw [stream] at heard
    refine ⟨?_, ?_, ?_⟩
    · rw [locals]
      exact heard.finish_snd
    · intro ch
      rw [locals, Writer.finish_sumSq, heard.sumSq, lane_interleaved]
    · rw [locals, Writer.finish_frameCount, heard.frameCount, interleaved_length,
        Nat.mul_div_cancel _ config.nChannels_pos]

end Intact

section Runs

variable [Zero X] [Zero Y] [Add Y] [Mul Y] {config : ProbeConfig} {asF64 : X → Y}
  {s : Recorder config.nChannels X Y}

omit [Zero X] [Zero Y] in
/-- The writer leaves its loop by a load that sees the flag. -/
theorem load_of_exited {next : Recorder config.nChannels X Y}
    {label : RecorderStep config.nChannels X} (taken : s.step config asF64 label = some next)
    (exited : next.writer = .exited) :
    s.writer = .exited ∨
      (label = .writer ∧ s.writer = .checking ∧ s.shutdown = true ∧ next.ring = s.ring) := by
  cases label with
  | process frames =>
      change s.process frames = some next at taken
      unfold Recorder.process at taken
      split at taken <;> cases taken
      exact Or.inl exited
  | callback =>
      change s.callbackStep = some next at taken
      unfold Recorder.callbackStep at taken
      split at taken <;> (try split at taken) <;> cases taken <;> exact Or.inl exited
  | writer =>
      change s.writerStep config asF64 = some next at taken
      unfold Recorder.writerStep at taken
      split at taken
      · rename_i popping
        split at taken <;> cases taken
        · exact Or.inl exited
        · cases exited
      · rename_i checking
        split at taken <;> cases taken
        · rename_i flag
          exact Or.inr ⟨rfl, checking, flag, rfl⟩
        · cases exited
      · cases taken
  | main =>
      change s.mainStep = some next at taken
      unfold Recorder.mainStep at taken
      split at taken <;> cases taken <;> exact Or.inl exited

/-- A run that finds the ring still empty leaves it empty. -/
theorem empty_of_stillEmpty
    (reached : (recorderSystem config asF64).ReachableVia StillEmpty s)
    (exited : s.writer = .exited) : s.ring.items = [] := by
  cases reached with
  | init initial =>
      cases initial
      cases exited
  | @step before _ label reached kept taken =>
      rcases Intact.reachable reached with ⟨popped, intact⟩
      rcases load_of_exited taken exited with already | ⟨rfl, checking, flag, same⟩
      · exact absurd already (intact.running_of_step taken)
      · rw [same]
        exact kept checking flag

/-- A run that ends with an empty ring has found it so. -/
theorem stillEmpty_of_empty (reached : (recorderSystem config asF64).Reachable s)
    (empty : s.writer = .exited → s.ring.items = []) :
    (recorderSystem config asF64).ReachableVia StillEmpty s := by
  induction reached with
  | init initial => exact .init initial
  | @step s next label reached _ taken ih =>
      rcases Intact.reachable reached with ⟨popped, intact⟩
      refine .step (ih (fun exited => absurd exited (intact.running_of_step taken))) ?_ taken
      cases label with
      | process frames => exact trivial
      | callback => exact trivial
      | main => exact trivial
      | writer =>
          intro checking flag
          change s.writerStep config asF64 = some next at taken
          rw [Recorder.writerStep, checking] at taken
          simp only [flag, if_true] at taken
          cases taken
          exact empty rfl

theorem perform_reachable (config : ProbeConfig) (asF64 : X → Y)
    (labels : List (RecorderStep config.nChannels X)) :
    (recorderSystem config asF64).Reachable
      (perform (Recorder.step config asF64) (Recorder.start config) labels) := by
  have started : (recorderSystem config asF64).Reachable (Recorder.start config) := .init rfl
  exact started.perform labels

/-- When the writer exits, its file, its sums and its count are those of the accepted
frames if and only if the run never found samples in the ring at the step in which the
writer sees the flag. -/
theorem recorder_lossless_iff (config : ProbeConfig) (asF64 : X → Y)
    (s : Recorder config.nChannels X Y)
    (reached : (recorderSystem config asF64).Reachable s) (exited : s.writer = .exited) :
    Lossless config asF64 s ↔ (recorderSystem config asF64).ReachableVia StillEmpty s := by
  rcases Intact.reachable reached with ⟨popped, intact⟩
  rw [intact.lossless_iff exited]
  constructor
  · intro empty
    exact stillEmpty_of_empty reached (fun _ => empty)
  · intro kept
    exact empty_of_stillEmpty kept exited

/-- Two channels, one frame, and a writer that has popped it before the client is
deactivated. -/
theorem recorder_lossless_iff_one_frame :
    let config : ProbeConfig := ⟨2, 4096, true, by decide⟩
    let s : Recorder 2 Int Int := perform (Recorder.step config id) (Recorder.start config)
      [.main, .process [fun ch => ch.val + 1], .callback, .callback, .callback, .callback,
        .callback, .writer, .writer, .main, .main, .writer, .writer]
    Lossless config id s ↔ (recorderSystem config id).ReachableVia StillEmpty s := by
  intro config s
  exact recorder_lossless_iff config id s (perform_reachable config id _) (by decide)

/-- One channel: the writer finds the ring empty, a frame arrives, the client is
deactivated and the flag is stored, and the writer leaves its loop without the frame. -/
theorem recorder_loses_a_frame :
    let config : ProbeConfig := ⟨1, 96000, true, by decide⟩
    ¬ ∀ s : Recorder 1 Int Int, (recorderSystem config id).Reachable s → s.writer = .exited →
      Lossless config id s := by
  intro config lossless
  let labels : List (RecorderStep 1 Int) := [.main, .writer, .process [fun _ => 1], .callback,
    .callback, .callback, .callback, .main, .main, .writer]
  have complete := lossless (perform (Recorder.step config id) (Recorder.start config) labels)
    (perform_reachable config id labels) (by decide)
  have frames := complete.frameCount
  revert frames
  decide

end Runs

end Probe
end Rfofs
