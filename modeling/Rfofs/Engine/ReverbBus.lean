import Rfofs.Engine.Pan
import Rfofs.Grain.SampleMachine

namespace Rfofs
namespace Engine

open Grain

/-!
# The reverb bus beside the direct signal

The channels of an ambisonic mode are the direct channels followed by those of the
reverb bus, and panning splits the slice between them.  The checked reading of the
panning below indexes as the code does and stops outside the slice; it agrees with the
total one wherever the slice has the channels of the mode.

The direct part then does not see the bus, and the bus does not see the distance
beyond the reference distance, the order of the direct signal, or what was encoded
there: it is the first-order encoding of a source at distance one, cut to its size.
-/

variable {R : Type*}

/-! ## Indexing as the code does -/

/-- Accumulate into one channel, which must be there.  The source panics otherwise. -/
def checkedAddAt [Add R] (out : List R) (ch : Nat) (x : R) : Option (List R) :=
  if ch < out.length then some (addAt out ch x) else none

/-- Split a slice in two; the first part must be there. -/
def checkedSplitAt (out : List R) (mid : Nat) : Option (List R × List R) :=
  if mid ≤ out.length then some (out.take mid, out.drop mid) else none

theorem checkedAddAt_eq [Add R] {out : List R} {ch : Nat} (inside : ch < out.length) (x : R) :
    checkedAddAt out ch x = some (addAt out ch x) := if_pos inside

theorem checkedSplitAt_eq {out : List R} {mid : Nat} (inside : mid ≤ out.length) :
    checkedSplitAt out mid = some (out.take mid, out.drop mid) := if_pos inside

/-- A channel behind the first leaves the first alone. -/
theorem take_one_addAt [Add R] (out : List R) (ch : Nat) (x : R) :
    (addAt out (ch + 1) x).take 1 = out.take 1 := by
  cases out with
  | nil => rfl
  | cons first rest =>
      rw [addAt, List.modify_succ_cons]
      rfl

variable [Field R] [RealOps R]

/-- `encodeAmbisonics` with every index checked. -/
def checkedEncode (s azm elev : R) (order dims : Nat) (out : List R) : Option (List R) :=
  let cosE := cos elev
  let sinE := sin elev
  let cosA := cos azm
  let sinA := sin azm
  if out.length = 0 then
    some out
  else do
    let out ← checkedAddAt out 0 (s * RealOps.frac1Sqrt2)
    if 1 ≤ order ∧ 1 < out.length then do
      let out ← checkedAddAt out 1 (s * cosE * cosA)
      let out ← if 2 < out.length then checkedAddAt out 2 (s * cosE * sinA) else some out
      if dims = 3 ∧ 3 < out.length then checkedAddAt out 3 (s * sinE) else some out
    else
      some out

/-- The encoder guards its own indices, so it fits every slice.  Channels that are not there
are left out. -/
theorem checkedEncode_eq (s azm elev : R) (order dims : Nat) (out : List R) :
    checkedEncode s azm elev order dims out = some (encodeAmbisonics s azm elev order dims out) := by
  unfold checkedEncode encodeAmbisonics
  by_cases empty : out.length = 0
  · simp only [empty, if_true]
  · have first : 0 < out.length := Nat.pos_of_ne_zero empty
    simp only [empty, if_false, checkedAddAt_eq first, Option.bind_eq_bind, Option.bind_some,
      addAt_length]
    by_cases second : 1 ≤ order ∧ 1 < out.length
    · have inside : 1 < (addAt out 0 (s * RealOps.frac1Sqrt2)).length := by
        rw [addAt_length]
        exact second.2
      simp only [second, and_self, if_true, checkedAddAt_eq inside, Option.bind_some, addAt_length]
      by_cases third : 2 < out.length <;> by_cases fourth : dims = 3 ∧ 3 < out.length <;>
        simp only [third, fourth, if_true, if_false, checkedAddAt, addAt_length, Option.bind_some,
          and_self]
    · simp only [second, if_false]

variable [LinearOrder R]

/-- `reverbSend` with every index checked; the single channel of a mono bus is written
only when it is there. -/
def checkedReverbSend (sample azm elev distance : R) (dims : Nat) (reverb : Option Nat)
    (out : List R) : Option (List R) :=
  match reverb with
  | none => some out
  | some reverbOrder =>
      if 1 ≤ distance then
        if reverbOrder = 0 then
          some (addAt out 0 (sample * RealOps.frac1Sqrt2))
        else
          checkedEncode sample azm elev 1 dims out
      else
        some out

theorem checkedReverbSend_eq (sample azm elev distance : R) (dims : Nat) (reverb : Option Nat)
    (out : List R) :
    checkedReverbSend sample azm elev distance dims reverb out =
      some (reverbSend sample azm elev distance dims reverb out) := by
  unfold checkedReverbSend reverbSend
  split
  · rfl
  · simp only [checkedEncode_eq]
    split <;> try split
    all_goals rfl

/-- `panSample` with every index checked. -/
def checkedPanSample (sample azm elev distance : R) (mode : PanMode) (out : List R) :
    Option (List R) :=
  let s := sample * distGain distance
  match mode with
  | .mono => checkedAddAt out 0 s
  | .stereo => do
      let halfPi := RealOps.pi / 2
      let angle := (max (-halfPi) (min azm halfPi) + halfPi) * (1 / 2)
      let out ← checkedAddAt out 0 (s * cos angle)
      checkedAddAt out 1 (s * sin angle)
  | .ambisonic order dims reverb => do
      let (directOut, revOut) ← checkedSplitAt out (ambisonicDirectChannelCount order dims)
      let directOut ← checkedEncode s azm elev order dims directOut
      let revOut ← checkedReverbSend sample azm elev distance dims reverb revOut
      some (directOut ++ revOut)

def checkedPanGains (azm elev distance : R) (mode : PanMode) (gains : List R) : Option (List R) :=
  checkedPanSample 1 azm elev distance mode gains

/-- A slice with the channels of the mode is never indexed outside.  This holds for every
order, every dimension and every reverb order. -/
theorem checkedPanSample_eq (sample azm elev distance : R) {mode : PanMode} {out : List R}
    (channels : out.length = mode.channelCount) :
    checkedPanSample sample azm elev distance mode out =
      some (panSample sample azm elev distance mode out) := by
  cases mode with
  | mono =>
      have inside : 0 < out.length := by rw [channels]; exact Nat.one_pos
      exact checkedAddAt_eq inside _
  | stereo =>
      have first : 0 < out.length := by rw [channels]; exact Nat.two_pos
      have second : 1 < out.length := by rw [channels]; exact Nat.one_lt_two
      simp only [checkedPanSample, panSample, checkedAddAt_eq first, Option.bind_eq_bind,
        Option.bind_some]
      exact checkedAddAt_eq (by rw [addAt_length]; exact second) _
  | ambisonic order dims reverb =>
      have inside : ambisonicDirectChannelCount order dims ≤ out.length := by
        rw [channels]
        exact Nat.le_add_right _ _
      simp only [checkedPanSample, panSample, checkedSplitAt_eq inside, checkedEncode_eq,
        checkedReverbSend_eq, Option.bind_eq_bind, Option.bind_some]

/-! ## The two parts -/

/-- The gains of silent channels. -/
def silentGains (mode : PanMode) : List R := List.replicate mode.channelCount 0

/-- The two parts of the gains are the encoder on the direct channels and the send on
the channels of the bus. -/
theorem panGains_silentGains (azm elev distance : R) (order dims : Nat) (reverb : Option Nat) :
    panGains azm elev distance (.ambisonic order dims reverb)
        (silentGains (.ambisonic order dims reverb)) =
      encodeAmbisonics (distGain distance) azm elev order dims
          (List.replicate (ambisonicDirectChannelCount order dims) 0) ++
        reverbSend 1 azm elev distance dims reverb
          (List.replicate (PanMode.reverbChannelCount dims reverb) 0) := by
  simp only [panGains, panSample, silentGains, PanMode.channelCount, List.replicate_add, one_mul]
  rw [List.take_left' (List.length_replicate ..), List.drop_left' (List.length_replicate ..)]

/-- What the direct channels receive, whatever follows them. -/
theorem take_panGains_silentGains (azm elev distance : R) (order dims : Nat) (reverb : Option Nat) :
    (panGains azm elev distance (.ambisonic order dims reverb)
        (silentGains (.ambisonic order dims reverb))).take (ambisonicDirectChannelCount order dims) =
      encodeAmbisonics (distGain distance) azm elev order dims
        (List.replicate (ambisonicDirectChannelCount order dims) 0) := by
  rw [panGains_silentGains]
  exact List.take_left' (by rw [encodeAmbisonics_length, List.length_replicate])

/-- What the bus receives: nothing below the reference distance, and from there on the signal
without the distance gain. -/
theorem drop_panGains_silentGains (azm elev distance : R) (order dims : Nat) (reverb : Option Nat) :
    (panGains azm elev distance (.ambisonic order dims reverb)
        (silentGains (.ambisonic order dims reverb))).drop (ambisonicDirectChannelCount order dims) =
      reverbSend 1 azm elev distance dims reverb
        (List.replicate (PanMode.reverbChannelCount dims reverb) 0) := by
  rw [panGains_silentGains]
  exact List.drop_left' (by rw [encodeAmbisonics_length, List.length_replicate])

omit [LinearOrder R] in
/-- Whatever else is encoded, the first channel receives W. -/
theorem take_one_encodeAmbisonics (s azm elev : R) (order dims : Nat) {out : List R}
    (channels : out.length ≠ 0) :
    (encodeAmbisonics s azm elev order dims out).take 1 =
      (addAt out 0 (s * RealOps.frac1Sqrt2)).take 1 := by
  simp only [encodeAmbisonics, if_neg channels]
  split
  · split <;> split <;> simp only [take_one_addAt]
  · rfl

/-- The gains of a first-order mode at the reference distance.  The bus of first order is
compared with them. -/
def referenceGains (azm elev : R) (dims : Nat) : List R :=
  panGains azm elev 1 (.ambisonic 1 dims none) (silentGains (.ambisonic 1 dims none))

section Far

variable [IsStrictOrderedRing R]

omit [RealOps R] in
theorem distGain_one : distGain (1 : R) = 1 := by
  have clamp : max (1 : R) (1 / 100) = 1 := max_eq_left (by norm_num)
  rw [distGain, if_pos one_pos, clamp, div_one]

/-- At the reference distance the direct signal is not attenuated. -/
theorem referenceGains_eq (azm elev : R) (dims : Nat) :
    referenceGains azm elev dims = encodeAmbisonics 1 azm elev 1 dims
      (List.replicate (ambisonicDirectChannelCount 1 dims) 0) := by
  rw [referenceGains, panGains_silentGains, distGain_one]
  exact List.append_nil _

/-- The first of these gains is that of W. -/
theorem take_one_referenceGains (azm elev : R) (dims : Nat) :
    (referenceGains azm elev dims).take 1 = [RealOps.frac1Sqrt2] := by
  have channels : ∃ rest, ambisonicDirectChannelCount 1 dims = rest + 1 := by
    unfold ambisonicDirectChannelCount
    split
    · exact ⟨2, rfl⟩
    · exact ⟨3, rfl⟩
  rcases channels with ⟨rest, channels⟩
  rw [referenceGains_eq, channels, take_one_encodeAmbisonics _ _ _ _ _ (by simp),
    List.replicate_succ, addAt, List.modify_zero_cons, zero_add, one_mul]
  rfl

/-- From the reference distance on the bus carries the reference gains, as many of
them as it has channels. -/
theorem reverbSend_far {distance : R} (far : 1 ≤ distance) (azm elev : R) (dims : Nat)
    (reverb : Option Nat) :
    reverbSend 1 azm elev distance dims reverb
        (List.replicate (PanMode.reverbChannelCount dims reverb) 0) =
      (referenceGains azm elev dims).take (PanMode.reverbChannelCount dims reverb) := by
  match reverb with
  | none => rfl
  | some 0 =>
      rw [reverbSend, if_pos far, if_pos rfl, PanMode.reverbChannelCount, take_one_referenceGains]
      simp [addAt, List.replicate]
  | some (k + 1) =>
      have whole : (referenceGains azm elev dims).length = ambisonicDirectChannelCount 1 dims := by
        rw [referenceGains_eq, encodeAmbisonics_length, List.length_replicate]
      have channels : PanMode.reverbChannelCount dims (some (k + 1)) =
          (referenceGains azm elev dims).length := whole.symm
      rw [channels, List.take_length, whole, referenceGains_eq, reverbSend, if_pos far,
        if_neg (Nat.succ_ne_zero k)]

/-- Direct signal and reverb bus are separated.  Panning silent channels stays inside
the slice; its direct part is what the mode without a bus receives; its reverb part is
silent below the reference distance, and from there on it is the first-order gains at
distance one, of which a mono bus takes the first. -/
theorem panGains_separated (azm elev distance : R) (order dims : Nat) (reverb : Option Nat) :
    ∃ gains direct reference : List R,
      checkedPanGains azm elev distance (.ambisonic order dims reverb)
          (silentGains (.ambisonic order dims reverb)) = some gains ∧
        checkedPanGains azm elev distance (.ambisonic order dims none)
          (silentGains (.ambisonic order dims none)) = some direct ∧
        checkedPanGains azm elev 1 (.ambisonic 1 dims none)
          (silentGains (.ambisonic 1 dims none)) = some reference ∧
        gains.take (ambisonicDirectChannelCount order dims) = direct ∧
        (distance < 1 → ∀ gain ∈ gains.drop (ambisonicDirectChannelCount order dims), gain = 0) ∧
        (1 ≤ distance → gains.drop (ambisonicDirectChannelCount order dims) =
          match reverb with
          | none => []
          | some 0 => [RealOps.frac1Sqrt2]
          | some _ => reference) ∧
        reference.take 1 = [RealOps.frac1Sqrt2] := by
  have checked : ∀ (distance : R) (order : Nat) (reverb : Option Nat),
      checkedPanGains azm elev distance (.ambisonic order dims reverb)
          (silentGains (.ambisonic order dims reverb)) =
        some (panGains azm elev distance (.ambisonic order dims reverb)
          (silentGains (.ambisonic order dims reverb))) :=
    fun _ _ _ => checkedPanSample_eq _ _ _ _ (List.length_replicate ..)
  refine ⟨_, _, _, checked _ _ _, checked _ _ _, checked _ _ _, ?_, ?_, ?_, ?_⟩
  · rw [take_panGains_silentGains, panGains_silentGains]
    exact (List.append_nil _).symm
  · intro near gain member
    rw [drop_panGains_silentGains, reverbSend_of_near near] at member
    exact List.eq_of_mem_replicate member
  · intro far
    rw [drop_panGains_silentGains, reverbSend_far far]
    match reverb with
    | none => rfl
    | some 0 => exact take_one_referenceGains azm elev dims
    | some (k + 1) =>
        apply List.take_of_length_le
        rw [referenceGains_eq, encodeAmbisonics_length, List.length_replicate]
        exact le_refl _
  · exact take_one_referenceGains azm elev dims

/-- A source at distance five in a second-order mode with a first-order bus. -/
theorem panGains_separated_second_order :
    ∃ gains direct reference : List ℝ,
      checkedPanGains 1 0 5 (.ambisonic 2 3 (some 1)) (silentGains (.ambisonic 2 3 (some 1))) =
          some gains ∧
        checkedPanGains 1 0 5 (.ambisonic 2 3 none) (silentGains (.ambisonic 2 3 none)) =
          some direct ∧
        checkedPanGains 1 0 1 (.ambisonic 1 3 none) (silentGains (.ambisonic 1 3 none)) =
          some reference ∧
        gains.take 9 = direct ∧ gains.drop 9 = reference := by
  rcases panGains_separated (1 : ℝ) 0 5 2 3 (some 1) with
    ⟨gains, direct, reference, panned, plain, far, front, -, back, -⟩
  exact ⟨gains, direct, reference, panned, plain, far, front, back (by norm_num)⟩

end Far

end Engine
end Rfofs
