import Rfofs.Grain.Fof

namespace Rfofs
namespace Engine

open Grain

/-!
# Gains of a position

A grain has one position for its whole life, so panning is a vector of gains, one
for each output channel.  The reverb bus of an ambisonic mode follows the direct
channels; its level does not depend on the distance, and it is silent below the
reference distance.
-/

/-- Global panning mode.  `reverb = none` means that there is no reverb bus.  The fields of
the ambisonic mode are bytes of the source. -/
inductive PanMode where
  | mono
  | stereo
  | ambisonic (order dims : Nat) (reverb : Option Nat)
  deriving DecidableEq, Repr

/-- In two dimensions each order adds two channels, in three dimensions the number is a
square. -/
def ambisonicDirectChannelCount (order dims : Nat) : Nat :=
  if dims = 2 then 2 * order + 1 else (order + 1) * (order + 1)

namespace PanMode

/-- Channels of the reverb bus; they do not follow the order of the direct signal. -/
def reverbChannelCount (dims : Nat) : Option Nat → Nat
  | none => 0
  | some 0 => 1
  | some _ => ambisonicDirectChannelCount 1 dims

/-- Number of output channels.  The reverb bus stands behind the direct channels. -/
def channelCount : PanMode → Nat
  | .mono => 1
  | .stereo => 2
  | .ambisonic order dims reverb =>
      ambisonicDirectChannelCount order dims + reverbChannelCount dims reverb

end PanMode

variable {R : Type*}

/-- Accumulate into one channel.  A channel that is not there receives nothing. -/
def addAt [Add R] (out : List R) (ch : Nat) (x : R) : List R := out.modify ch (· + x)

theorem addAt_length [Add R] (out : List R) (ch : Nat) (x : R) :
    (addAt out ch x).length = out.length :=
  List.length_modify ..

variable [Field R] [RealOps R]

/-- Encode a sample into the channels W, X, Y and Z, as far as they are there.
Higher orders are not encoded. -/
def encodeAmbisonics (s azm elev : R) (order dims : Nat) (out : List R) : List R :=
  let cosE := cos elev
  let sinE := sin elev
  let cosA := cos azm
  let sinA := sin azm
  if out.length = 0 then
    out
  else
    let out := addAt out 0 (s * RealOps.frac1Sqrt2)
    if 1 ≤ order ∧ 1 < out.length then
      let out := addAt out 1 (s * cosE * cosA)
      let out := if 2 < out.length then addAt out 2 (s * cosE * sinA) else out
      if dims = 3 ∧ 3 < out.length then addAt out 3 (s * sinE) else out
    else
      out

theorem encodeAmbisonics_length (s azm elev : R) (order dims : Nat) (out : List R) :
    (encodeAmbisonics s azm elev order dims out).length = out.length := by
  unfold encodeAmbisonics
  split
  · rfl
  · simp only
    split
    · split <;> split <;> simp only [addAt_length]
    · exact addAt_length _ _ _

variable [LinearOrder R]

/-- The gain of a distance. -/
def distGain (distance : R) : R := if 0 < distance then 1 / max distance (1 / 100) else 1

/-- The send to the reverb bus: the sample without the distance gain. -/
def reverbSend (sample azm elev distance : R) (dims : Nat) (reverb : Option Nat)
    (out : List R) : List R :=
  match reverb with
  | none => out
  | some reverbOrder =>
      if 1 ≤ distance then
        if reverbOrder = 0 then
          addAt out 0 (sample * RealOps.frac1Sqrt2)
        else
          encodeAmbisonics sample azm elev 1 dims out
      else
        out

/-- Accumulate a panned sample into the channels.  The distance gain acts on the direct
signal. -/
def panSample (sample azm elev distance : R) (mode : PanMode) (out : List R) : List R :=
  let s := sample * distGain distance
  match mode with
  | .mono => addAt out 0 s
  | .stereo =>
      let halfPi := RealOps.pi / 2
      let angle := (max (-halfPi) (min azm halfPi) + halfPi) * (1 / 2)
      addAt (addAt out 0 (s * cos angle)) 1 (s * sin angle)
  | .ambisonic order dims reverb =>
      let direct := ambisonicDirectChannelCount order dims
      encodeAmbisonics s azm elev order dims (out.take direct) ++
        reverbSend sample azm elev distance dims reverb (out.drop direct)

/-- The gains of a position.  They are what a sample of one would leave in silent channels. -/
def panGains (azm elev distance : R) (mode : PanMode) (gains : List R) : List R :=
  panSample 1 azm elev distance mode gains

theorem reverbSend_length (sample azm elev distance : R) (dims : Nat) (reverb : Option Nat)
    (out : List R) : (reverbSend sample azm elev distance dims reverb out).length = out.length := by
  unfold reverbSend
  split
  · rfl
  · split
    · split
      · exact addAt_length _ _ _
      · exact encodeAmbisonics_length _ _ _ _ _ _
    · rfl

/-- Panning accumulates in place: no channel appears or disappears. -/
theorem panSample_length (sample azm elev distance : R) (mode : PanMode) (out : List R) :
    (panSample sample azm elev distance mode out).length = out.length := by
  cases mode with
  | mono => exact addAt_length _ _ _
  | stereo =>
      change (addAt (addAt _ _ _) _ _).length = _
      rw [addAt_length, addAt_length]
  | ambisonic order dims reverb =>
      simp only [panSample]
      rw [List.length_append, encodeAmbisonics_length, reverbSend_length, ← List.length_append,
        List.take_append_drop]

/-- Below the reference distance nothing is sent to the reverb bus. -/
theorem reverbSend_of_near {distance : R} (near : distance < 1) (sample azm elev : R) (dims : Nat)
    (reverb : Option Nat) (out : List R) :
    reverbSend sample azm elev distance dims reverb out = out := by
  unfold reverbSend
  split
  · rfl
  · exact if_neg (not_le_of_gt near)

end Engine
end Rfofs
