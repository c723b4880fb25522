import Rfofs.Foundation.Numerals
import Rfofs.Foundation.KeyOrder
import Rfofs.Foundation.MachineInt
import Rfofs.Foundation.Transition
import Rfofs.Foundation.BoundedFifo
import Rfofs.Foundation.LaneLoop
import Rfofs.Foundation.Slab
import Rfofs.Foundation.Interleaving
import Rfofs.Foundation.CircleGrid
import Rfofs.Foundation.Text
import Rfofs.Foundation.Frames
import Rfofs.Grain.Params
import Rfofs.Grain.Fof
import Rfofs.Grain.SampleMachine
import Rfofs.Grain.Calls
import Rfofs.Grain.FadeEntry
import Rfofs.Grain.Written
import Rfofs.Grain.Trajectory
import Rfofs.Grain.ClosedForm
import Rfofs.Grain.Lifecycle
import Rfofs.Grain.Lifetime
import Rfofs.Grain.FadeEnd
import Rfofs.Grain.KillContinuity
import Rfofs.Grain.EnvelopeRange
import Rfofs.Grain.Naive
import Rfofs.Grain.Agreement
import Rfofs.Grain.Oscillator
import Rfofs.Grain.FastSin
import Rfofs.Probe.Writer
import Rfofs.Probe.Recorder
import Rfofs.Queue.Wheel
import Rfofs.Queue.DeadlineQueue
import Rfofs.Queue.WheelRefinement
import Rfofs.Queue.TimeWheel
import Rfofs.Queue.Accounts
import Rfofs.Queue.Due
import Rfofs.Queue.Sharing
import Rfofs.Queue.Ledger
import Rfofs.Queue.Deferral
import Rfofs.Queue.Resync
import Rfofs.Control.Ring
import Rfofs.Control.ClientThreads
import Rfofs.Control.Bridge
import Rfofs.Engine.Pan
import Rfofs.Engine.ReverbBus
import Rfofs.Engine.ModeNotation
import Rfofs.Engine.ModeArgument
import Rfofs.Engine.Engine
import Rfofs.Engine.Roster
import Rfofs.Engine.Session
import Rfofs.Engine.Runs
import Rfofs.Engine.Steps
import Rfofs.Engine.Relocation
import Rfofs.Engine.Killable
import Rfofs.Control.Scratch
import Rfofs.Engine.Choir
import Rfofs.Engine.Superposition
import Rfofs.Engine.Process
import Rfofs.Engine.FrameTime
import Rfofs.Engine.Onset
import Rfofs.Engine.Offline
import Rfofs.Engine.Coverage
import Rfofs.Engine.Submission
import Rfofs.Engine.Punctual
import Rfofs.Engine.Tone
import Rfofs.Engine.Ensemble
import Rfofs.Engine.Mixdown
import Rfofs.Foundation.ReleaseAcquire
import Rfofs.Control.WeakRing
import Rfofs.Control.WeakRingSteps
import Rfofs.Control.WeakRingBuffer
import Rfofs.Control.Handshake
import Rfofs.Control.SegmentWords
import Rfofs.Control.HandshakeSteps
import Rfofs.Control.Attach
import Rfofs.Control.Serial
import Rfofs.Control.ServerProcess
import Rfofs.Control.ServerMirror
import Rfofs.Control.ServerRun
import Rfofs.Foundation.PolynomialBounds
import Rfofs.Grain.SinCycles
import Rfofs.Grain.DefaultBuild
import Rfofs.Grain.BuildAccuracy
import Rfofs.Grain.Placement
import Rfofs.Queue.Naturality
import Rfofs.Engine.SoundField
import Rfofs.Engine.Rotation
