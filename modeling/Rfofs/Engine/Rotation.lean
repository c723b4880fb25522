import Rfofs.Engine.SoundField

namespace Rfofs
namespace Engine

open Foundation
open Grain
open Queue

/-!
# Turned and mirrored fields

The two instances of the sound field.  To turn every grain about the vertical axis turns the
channels X and Y of an ambisonic field, and those of its first-order reverb bus, by the same
angle, and leaves the others alone.  To mirror every grain at the median plane exchanges the
two channels of a stereo signal.
-/

/-! ## The ambisonic encoder -/

theorem getD_addAt {R : Type*} [AddMonoid R] (out : List R) (k ch : Nat) (x : R) :
    (addAt out k x).getD ch 0 =
      if ch = k ∧ ch < out.length then out.getD ch 0 + x else out.getD ch 0 := by
  simp only [addAt, List.getD_eq_getElem?_getD, List.getElem?_modify]
  by_cases same : ch = k
  · subst same
    by_cases inside : ch < out.length
    · rw [if_pos ⟨rfl, inside⟩, List.getElem?_eq_getElem inside]
      simp only [if_true, Option.map_eq_map, Option.map_some, Option.getD_some]
    · rw [if_neg (fun both => inside both.2), List.getElem?_eq_none (Nat.le_of_not_lt inside)]
      rfl
  · have apart : ¬ k = ch := fun equal => same equal.symm
    rw [if_neg (fun both => same both.1)]
    simp only [if_neg apart, Option.map_eq_map, Option.map_id']

/-- What the encoder puts on silent channels, if there is one for Y.  Only X and Y depend on
the azimuth. -/
theorem getD_encode {R : Type*} [Field R] [RealOps R] (s azm elev : R) {order n : Nat} (dims : Nat)
    (first : 1 ≤ order) (wide : 3 ≤ n) (ch : Nat) :
    (encodeAmbisonics s azm elev order dims (List.replicate n 0)).getD ch 0 =
      if ch = 0 then s * RealOps.frac1Sqrt2
      else if ch = 1 then s * cos elev * cos azm
      else if ch = 2 then s * cos elev * sin azm
      else if ch = 3 ∧ dims = 3 ∧ 3 < n then s * sin elev
      else 0 := by
  have silent : ∀ k, (List.replicate n (0 : R)).getD k 0 = 0 := by
    intro k
    rw [List.getD_eq_getElem?_getD, List.getElem?_replicate]
    split <;> rfl
  have some_channel : n ≠ 0 := by omega
  have x_channel : 1 < n := by omega
  have y_channel : 2 < n := by omega
  have w_channel : 0 < n := by omega
  have horizontal : ∀ k, (addAt (addAt (addAt (List.replicate n 0) 0 (s * RealOps.frac1Sqrt2)) 1
      (s * cos elev * cos azm)) 2 (s * cos elev * sin azm)).getD k 0 =
        if k = 0 then s * RealOps.frac1Sqrt2
        else if k = 1 then s * cos elev * cos azm
        else if k = 2 then s * cos elev * sin azm
        else 0 := by
    intro k
    simp only [getD_addAt, addAt_length, List.length_replicate, silent]
    rcases k with _ | _ | _ | k
    · simp [w_channel]
    · simp [x_channel]
    · simp [y_channel]
    · simp
  simp only [encodeAmbisonics, List.length_replicate, addAt_length, if_neg some_channel,
    if_pos (And.intro first x_channel), if_pos y_channel]
  by_cases z_channel : dims = 3 ∧ 3 < n
  · rw [if_pos z_channel, getD_addAt, horizontal]
    simp only [addAt_length, List.length_replicate]
    rcases ch with _ | _ | _ | _ | ch
    · simp
    · simp
    · simp
    · simp [z_channel]
    · simp
  · rw [if_neg z_channel, horizontal]
    simp [z_channel]

/-- Turn two neighbouring channels by an angle.  The other channels stay. -/
noncomputable def turnPair (θ : ℝ) (i : Nat) : (Nat → ℝ) →ₗ[ℝ] (Nat → ℝ) where
  toFun x ch :=
    if ch = i then Real.cos θ * x i - Real.sin θ * x (i + 1)
    else if ch = i + 1 then Real.sin θ * x i + Real.cos θ * x (i + 1)
    else x ch
  map_add' x y := by
    funext ch
    simp only [Pi.add_apply]
    split
    · ring
    · split
      · ring
      · rfl
  map_smul' c x := by
    funext ch
    simp only [Pi.smul_apply, smul_eq_mul, RingHom.id_apply]
    split
    · ring
    · split
      · ring
      · rfl

/-- The encoder turns X and Y.  This is the addition theorem of sine and cosine. -/
theorem encode_turned (θ s azm elev : ℝ) {order n : Nat} (dims : Nat) (first : 1 ≤ order)
    (wide : 3 ≤ n) :
    (fun ch => (encodeAmbisonics s (azm + θ) elev order dims (List.replicate n 0)).getD ch 0) =
      turnPair θ 1 (fun ch =>
        (encodeAmbisonics s azm elev order dims (List.replicate n 0)).getD ch 0) := by
  have cosine : cos (azm + θ) = cos azm * Real.cos θ - sin azm * Real.sin θ := Real.cos_add azm θ
  have sine : sin (azm + θ) = sin azm * Real.cos θ + cos azm * Real.sin θ := Real.sin_add azm θ
  funext ch
  simp only [getD_encode _ _ _ dims first wide, turnPair, LinearMap.coe_mk, AddHom.coe_mk, cosine,
    sine]
  rcases ch with _ | _ | _ | ch
  · rfl
  · simp only [Nat.reduceAdd, if_true, OfNat.ofNat_ne_zero, OfNat.ofNat_ne_one, if_false,
      one_ne_zero]
    ring
  · simp only [Nat.reduceAdd, if_true, OfNat.ofNat_ne_zero, OfNat.ofNat_ne_one, if_false,
      one_ne_zero]
    ring
  · have one : ¬ ch + 3 = 1 := by omega
    have two : ¬ ch + 3 = 1 + 1 := by omega
    simp only [Nat.add_assoc, Nat.reduceAdd, if_neg one, if_neg two]

/-- The first `n` channels of one vector of gains, then another vector. -/
def jointGains (n : Nat) (front back : Nat → ℝ) (ch : Nat) : ℝ :=
  if ch < n then front ch else back (ch - n)

theorem getD_append_jointGains (front back : List ℝ) :
    (fun ch => (front ++ back).getD ch 0) =
      jointGains front.length (fun ch => front.getD ch 0) (fun ch => back.getD ch 0) := by
  funext ch
  unfold jointGains
  split
  · rename_i inside
    rw [List.getD_append _ _ _ _ inside]
  · rename_i behind
    rw [List.getD_append_right _ _ _ _ (Nat.le_of_not_lt behind)]

theorem turnPair_front (θ : ℝ) {n : Nat} (wide : 3 ≤ n) (front back : Nat → ℝ) :
    turnPair θ 1 (jointGains n front back) = jointGains n (turnPair θ 1 front) back := by
  have x_channel : 1 < n := by omega
  have y_channel : 2 < n := by omega
  funext ch
  simp only [turnPair, jointGains, LinearMap.coe_mk, AddHom.coe_mk, Nat.reduceAdd, if_pos x_channel,
    if_pos y_channel]
  by_cases inside : ch < n
  · simp only [if_pos inside]
  · have one : ¬ ch = 1 := by omega
    have two : ¬ ch = 2 := by omega
    simp only [if_neg inside, if_neg one, if_neg two]

theorem turnPair_back (θ : ℝ) (n : Nat) (front back : Nat → ℝ) :
    turnPair θ (n + 1) (jointGains n front back) = jointGains n front (turnPair θ 1 back) := by
  have x_channel : ¬ n + 1 < n := by omega
  have y_channel : ¬ n + 1 + 1 < n := by omega
  have x_place : n + 1 - n = 1 := by omega
  have y_place : n + 1 + 1 - n = 2 := by omega
  funext ch
  simp only [turnPair, jointGains, LinearMap.coe_mk, AddHom.coe_mk, Nat.reduceAdd, if_neg x_channel,
    if_neg y_channel, x_place, y_place]
  by_cases inside : ch < n
  · have one : ¬ ch = n + 1 := by omega
    have two : ¬ ch = n + 1 + 1 := by omega
    simp only [if_pos inside, if_neg one, if_neg two]
  · have one : ch - n = 1 ↔ ch = n + 1 := by omega
    have two : ch - n = 2 ↔ ch = n + 1 + 1 := by omega
    simp only [if_neg inside, one, two]

/-- The channels of the direct signal that carry a direction, and those of the bus.  A signal
of order zero has none. -/
noncomputable def turnField (θ : ℝ) (order dims : Nat) (reverb : Option Nat) :
    (Nat → ℝ) →ₗ[ℝ] (Nat → ℝ) :=
  (if 1 ≤ order then turnPair θ 1 else LinearMap.id) ∘ₗ
    (if 1 < PanMode.reverbChannelCount dims reverb then
      turnPair θ (ambisonicDirectChannelCount order dims + 1)
    else LinearMap.id)

/-- Every grain is turned by an angle about the vertical axis. -/
def turnedBy (θ : ℝ) : Placement ℝ := ⟨fun p => p.azm + θ, fun p => p.elev, fun p => p.distance⟩

theorem gainsOf_ambisonic (order dims : Nat) (reverb : Option Nat) (p : FofParams ℝ) :
    gainsOf (.ambisonic order dims reverb) p = jointGains (ambisonicDirectChannelCount order dims)
      (fun ch => (encodeAmbisonics (distGain p.distance) p.azm p.elev order dims
        (List.replicate (ambisonicDirectChannelCount order dims) 0)).getD ch 0)
      (fun ch => (reverbSend 1 p.azm p.elev p.distance dims reverb
        (List.replicate (PanMode.reverbChannelCount dims reverb) 0)).getD ch 0) := by
  have split := panGains_silentGains p.azm p.elev p.distance order dims reverb
  change (fun ch => (panGains _ _ _ _ (silentGains _)).getD ch 0) = _
  rw [split, getD_append_jointGains, encodeAmbisonics_length, List.length_replicate]

theorem three_le_channels {order : Nat} (first : 1 ≤ order) (dims : Nat) :
    3 ≤ ambisonicDirectChannelCount order dims := by
  unfold ambisonicDirectChannelCount
  split
  · omega
  · nlinarith

theorem direct_turned (θ s azm elev : ℝ) (order dims n : Nat) (wide : 1 ≤ order → 3 ≤ n) :
    (fun ch => (encodeAmbisonics s (azm + θ) elev order dims (List.replicate n 0)).getD ch 0) =
      (if 1 ≤ order then turnPair θ 1 else LinearMap.id) (fun ch =>
        (encodeAmbisonics s azm elev order dims (List.replicate n 0)).getD ch 0) := by
  by_cases first : 1 ≤ order
  · rw [if_pos first]
    exact encode_turned θ s azm elev dims first (wide first)
  · have none_first : ∀ m, ¬ (1 ≤ order ∧ 1 < m) := fun m both => first both.1
    simp only [encodeAmbisonics, if_neg (none_first _), if_neg first, LinearMap.id_apply]

theorem bus_turned (θ azm elev distance : ℝ) (dims : Nat) (reverb : Option Nat) :
    (fun ch => (reverbSend 1 (azm + θ) elev distance dims reverb
        (List.replicate (PanMode.reverbChannelCount dims reverb) 0)).getD ch 0) =
      (if 1 < PanMode.reverbChannelCount dims reverb then turnPair θ 1 else LinearMap.id) (fun ch =>
        (reverbSend 1 azm elev distance dims reverb
          (List.replicate (PanMode.reverbChannelCount dims reverb) 0)).getD ch 0) := by
  match reverb with
  | none => rfl
  | some 0 => rfl
  | some (k + 1) =>
      have wide : 3 ≤ PanMode.reverbChannelCount dims (some (k + 1)) :=
        three_le_channels (le_refl 1) dims
      have several : 1 < PanMode.reverbChannelCount dims (some (k + 1)) := by omega
      have bus : ¬ k + 1 = 0 := Nat.succ_ne_zero k
      rw [if_pos several]
      by_cases far : 1 ≤ distance
      · simp only [reverbSend, if_pos far, if_neg bus]
        exact encode_turned θ 1 azm elev dims (le_refl 1) wide
      · simp only [reverbSend, if_neg far]
        have silent : (fun ch => (List.replicate (PanMode.reverbChannelCount dims
            (some (k + 1))) (0 : ℝ)).getD ch 0) = 0 := by
          funext ch
          rw [List.getD_eq_getElem?_getD, List.getElem?_replicate]
          split <;> rfl
        rw [silent, map_zero]

/-- Turned positions have turned gains, in every ambisonic mode. -/
theorem turns_ambisonic (θ : ℝ) (order dims : Nat) (reverb : Option Nat) :
    Turns (turnedBy θ) (turnField θ order dims reverb) (.ambisonic order dims reverb) := by
  intro p
  rw [gainsOf_ambisonic, gainsOf_ambisonic]
  change jointGains _ (fun ch => (encodeAmbisonics (distGain p.distance) (p.azm + θ) p.elev order dims
    _).getD ch 0) (fun ch => (reverbSend 1 (p.azm + θ) p.elev p.distance dims reverb _).getD ch 0) =
    _
  rw [direct_turned _ _ _ _ _ _ _ (fun first => three_le_channels first dims), bus_turned]
  unfold turnField
  rw [LinearMap.comp_apply]
  have back : ∀ front bus : Nat → ℝ, (if 1 < PanMode.reverbChannelCount dims reverb then
      turnPair θ (ambisonicDirectChannelCount order dims + 1) else LinearMap.id)
        (jointGains (ambisonicDirectChannelCount order dims) front bus) =
      jointGains (ambisonicDirectChannelCount order dims) front
        ((if 1 < PanMode.reverbChannelCount dims reverb then turnPair θ 1 else LinearMap.id) bus) := by
    intro front bus
    split
    · exact turnPair_back θ _ front bus
    · rfl
  have front : ∀ direct bus : Nat → ℝ, (if 1 ≤ order then turnPair θ 1 else LinearMap.id)
        (jointGains (ambisonicDirectChannelCount order dims) direct bus) =
      jointGains (ambisonicDirectChannelCount order dims)
        ((if 1 ≤ order then turnPair θ 1 else LinearMap.id) direct) bus := by
    intro direct bus
    split
    · rename_i first
      exact turnPair_front θ (three_le_channels first dims) direct bus
    · rfl
  rw [back, front]

/-! ## Stereo -/

/-- Every grain is mirrored at the median plane. -/
def mirrored : Placement ℝ := ⟨fun p => -p.azm, fun p => p.elev, fun p => p.distance⟩

/-- Exchange left and right. -/
def exchange : (Nat → ℝ) →ₗ[ℝ] (Nat → ℝ) := LinearMap.funLeft ℝ ℝ (Equiv.swap 0 1)

theorem clamp_neg {h : ℝ} (positive : 0 ≤ h) (a : ℝ) :
    max (-h) (min (-a) h) = -max (-h) (min a h) := by
  rw [max_def, max_def, min_def, min_def]
  split_ifs <;> linarith

theorem gainsOf_stereo (p : FofParams ℝ) (ch : Nat) :
    gainsOf .stereo p ch =
      if ch = 0 then distGain p.distance *
        Real.cos ((max (-(Real.pi / 2)) (min p.azm (Real.pi / 2)) + Real.pi / 2) * (1 / 2))
      else if ch = 1 then distGain p.distance *
        Real.sin ((max (-(Real.pi / 2)) (min p.azm (Real.pi / 2)) + Real.pi / 2) * (1 / 2))
      else 0 := by
  change (addAt (addAt [0, 0] 0 (1 * distGain p.distance * Real.cos _)) 1
    (1 * distGain p.distance * Real.sin _)).getD ch 0 = _
  rw [one_mul]
  rcases ch with _ | _ | ch
  · exact zero_add _
  · exact zero_add _
  · rfl

/-- Mirrored positions have exchanged gains.  The width of the panorama is the same on both
sides. -/
theorem turns_stereo : Turns mirrored exchange .stereo := by
  intro p
  funext ch
  have angle : (max (-(Real.pi / 2)) (min (-p.azm) (Real.pi / 2)) + Real.pi / 2) * (1 / 2) =
      Real.pi / 2 -
        (max (-(Real.pi / 2)) (min p.azm (Real.pi / 2)) + Real.pi / 2) * (1 / 2) := by
    rw [clamp_neg (by positivity)]
    ring
  change gainsOf .stereo (mirrored.params p) ch = gainsOf .stereo p (Equiv.swap 0 1 ch)
  rw [gainsOf_stereo, gainsOf_stereo]
  change (if ch = 0 then distGain p.distance * Real.cos ((max _ (min (-p.azm) _) + _) * _)
    else if ch = 1 then distGain p.distance * Real.sin ((max _ (min (-p.azm) _) + _) * _)
    else 0) = _
  rw [angle, Real.cos_pi_div_two_sub, Real.sin_pi_div_two_sub]
  rcases ch with _ | _ | ch
  · rw [Equiv.swap_apply_left]
    rfl
  · rw [Equiv.swap_apply_right]
    rfl
  · rw [Equiv.swap_apply_of_ne_of_ne (by omega) (by omega)]
    rfl

/-! ## Whole runs -/

section Runs

variable {R : Type*}

/-- An engine that has just been created holds no grain that could be moved. -/
theorem placed_new (move : Placement R) (sampleRate : R) (panMode : PanMode)
    (specs : List (Nat × Geometry × Bool)) (killCapacity : Nat) :
    placed move (RfofsEngine.new sampleRate panMode (freshWheels specs) (killQueue killCapacity)) =
      RfofsEngine.new sampleRate panMode (freshWheels specs) (killQueue killCapacity) := by
  have fresh : ∀ (capacity : Nat) (g : Geometry) (recorded : Bool),
      mapConsumer move.params (freshWheel capacity g recorded) = freshWheel capacity g recorded := by
    intro capacity g recorded
    have slots : (List.replicate g.slots ([] : List (FofParams R))).map (List.map move.params) =
        List.replicate g.slots [] := List.map_replicate
    cases recorded <;>
      simp only [freshWheel, timeWheel, mapConsumer, Wheel.map, Wheel.new, slots, if_true,
        Bool.false_eq_true, if_false, TimeWheelConsumer.attachStats] <;>
      rfl
  have wheels : (freshWheels specs : List (TimeWheelConsumer R)).map (mapConsumer move.params) =
      freshWheels specs := by
    unfold freshWheels
    rw [List.map_map]
    exact List.map_congr_left (fun spec _ => fresh spec.1 spec.2.1 spec.2.2)
  unfold placed RfofsEngine.new
  dsimp only
  rw [wheels]
  rfl

variable [Field R] [LinearOrder R] [FloorRing R] [RealOps R]

/-- A run never panics. -/
theorem play_total {engine : RfofsEngine R} {slots : List (Nat × Voice R)} (sound : Sound engine slots)
    (calls : List (EngineCall R)) : ∃ final heard, engine.play calls = some (final, heard) := by
  induction calls generalizing engine slots with
  | nil => exact ⟨engine, [], rfl⟩
  | cons call calls ih =>
      rcases sound.call call with ⟨next, nextSlots, called, nextSound⟩
      have heardCall : ∃ heard, engine.hear call = some (next, heard) := by
        cases call with
        | block choice outputs blockSize =>
            rcases Option.map_eq_some_iff.mp called with ⟨done, processed, rfl⟩
            exact ⟨_, congrArg (Option.map _) processed⟩
        | clock sample => exact ⟨[], congrArg (Option.map (fun next => (next, []))) called⟩
        | submit index params => exact ⟨[], congrArg (Option.map (fun next => (next, []))) called⟩
        | kill req => exact ⟨[], congrArg (Option.map (fun next => (next, []))) called⟩
      rcases heardCall with ⟨early, heard⟩
      rcases ih nextSound with ⟨final, late, played⟩
      refine ⟨final, early ++ late, ?_⟩
      rw [RfofsEngine.play, heard, Option.bind_some, played]
      rfl

/-- A run, and the same run with every grain moved: what is heard of the second is the image
of what is heard of the first. -/
theorem moved_runs {move : Placement R} {turn : (Nat → R) →ₗ[R] (Nat → R)} {panMode : PanMode}
    (turns : Turns move turn panMode) (sampleRate : R) (specs : List (Nat × Geometry × Bool))
    (killCapacity : Nat) {calls others : List (EngineCall R)}
    (same : List.Forall₂ (CallPlaced move turn panMode) calls others) :
    let engine := RfofsEngine.new sampleRate panMode (freshWheels specs) (killQueue killCapacity)
    ∃ final heard turned, engine.play calls = some (final, heard) ∧
      engine.play others = some (placed move final, turned) ∧
      List.Forall₂ (HeardTurned turn) heard turned := by
  intro engine
  rcases play_total (Sound.new sampleRate panMode specs killCapacity) calls with
    ⟨final, heard, played⟩
  rcases play_placed turns same played with ⟨turned, otherPlayed, images⟩
  rw [placed_new] at otherPlayed
  exact ⟨final, heard, turned, played, otherPlayed, images⟩

end Runs

/-- Turning every grain about the vertical axis turns the field: every frame of every block
is the frame that would have been heard, with X and Y turned in the direct signal and in the
reverb bus, at every order and whatever is called.  The arithmetic is exact, and the sine of
the carrier that of the `std-sin` build. -/
theorem ambisonic_field_turns (θ : ℝ) (order dims : Nat) (reverb : Option Nat) (sampleRate : ℝ)
    (specs : List (Nat × Geometry × Bool)) (killCapacity : Nat) {calls others : List (EngineCall ℝ)}
    (same : List.Forall₂ (CallPlaced (turnedBy θ) (turnField θ order dims reverb)
      (.ambisonic order dims reverb)) calls others) :
    let engine := RfofsEngine.new sampleRate (.ambisonic order dims reverb) (freshWheels specs)
      (killQueue killCapacity)
    ∃ final heard turned, engine.play calls = some (final, heard) ∧
      engine.play others = some (placed (turnedBy θ) final, turned) ∧
      List.Forall₂ (HeardTurned (turnField θ order dims reverb)) heard turned :=
  moved_runs (turns_ambisonic θ order dims reverb) sampleRate specs killCapacity same

/-- Mirroring every grain at the median plane exchanges left and right.  It does so in every
block of a run, to the last sample, and the number of active grains does not change. -/
theorem stereo_field_mirrors (sampleRate : ℝ) (specs : List (Nat × Geometry × Bool))
    (killCapacity : Nat) {calls others : List (EngineCall ℝ)}
    (same : List.Forall₂ (CallPlaced mirrored exchange .stereo) calls others) :
    let engine := RfofsEngine.new sampleRate .stereo (freshWheels specs) (killQueue killCapacity)
    ∃ final heard turned, engine.play calls = some (final, heard) ∧
      engine.play others = some (placed mirrored final, turned) ∧
      List.Forall₂ (HeardTurned exchange) heard turned :=
  moved_runs turns_stereo sampleRate specs killCapacity same

/-! ## Two grains in one block -/

/-- A block into zeroed ports is its own image. -/
theorem silence_turned (turn : (Nat → ℝ) →ₗ[ℝ] (Nat → ℝ)) (channels blockSize : Nat) :
    Turned turn (silence channels blockSize) (silence channels blockSize) := by
  refine ⟨rfl, fun j => ?_⟩
  have zero : frameOf (silence channels blockSize : List (List ℝ)) j = 0 := by
    funext ch
    simp only [frameOf, silence, List.getD_eq_getElem?_getD, List.getElem?_replicate]
    split
    · rw [Option.getD_some, List.getElem?_replicate]
      split <;> rfl
    · rfl
  rw [zero, map_zero]

theorem silence_wide (channels blockSize : Nat) :
    Wide channels blockSize (silence channels blockSize : List (List ℝ)) := by
  refine ⟨(List.length_replicate ..).ge, fun out member => ?_⟩
  rw [(List.mem_replicate.mp member).2, List.length_replicate]

/-- Two overlapping grains, of which one is killed. -/
def fieldCalls (move : Placement ℝ) (panMode : PanMode) : List (EngineCall ℝ) :=
  [.submit 0 (move.params (plainGrain 1 5)), .submit 0 (move.params (plainGrain 2 7)),
    .kill ⟨1, 4⟩, .block KeyChoice.next (silence panMode.channelCount 10) 10]

/-- Where every grain stays. -/
def stays : Placement ℝ := ⟨FofParams.azm, FofParams.elev, FofParams.distance⟩

theorem fieldCalls_placed (move : Placement ℝ) (turn : (Nat → ℝ) →ₗ[ℝ] (Nat → ℝ))
    (panMode : PanMode) :
    List.Forall₂ (CallPlaced move turn panMode) (fieldCalls stays panMode)
      (fieldCalls move panMode) := by
  have block : CallPlaced move turn panMode
      (.block KeyChoice.next (silence panMode.channelCount 10) 10)
      (.block KeyChoice.next (silence panMode.channelCount 10) 10) :=
    .block KeyChoice.next (silence_wide _ 10) (silence_turned turn _ 10)
  exact .cons (.submit 0 _) (.cons (.submit 0 _) (.cons (.kill _) (.cons block .nil)))

/-- A quarter turn of a first-order field with its reverb bus. -/
theorem ambisonic_field_turns_quarter :
    let engine := RfofsEngine.new (48000 : ℝ) (.ambisonic 1 3 (some 1)) (freshWheels smallWheel)
      (killQueue 16)
    ∃ final heard turned,
      engine.play (fieldCalls stays (.ambisonic 1 3 (some 1))) = some (final, heard) ∧
      engine.play (fieldCalls (turnedBy (Real.pi / 2)) (.ambisonic 1 3 (some 1))) =
        some (placed (turnedBy (Real.pi / 2)) final, turned) ∧
      List.Forall₂ (HeardTurned (turnField (Real.pi / 2) 1 3 (some 1))) heard turned :=
  ambisonic_field_turns (Real.pi / 2) 1 3 (some 1) 48000 smallWheel 16 (fieldCalls_placed _ _ _)

theorem stereo_field_mirrors_pair :
    let engine := RfofsEngine.new (48000 : ℝ) .stereo (freshWheels smallWheel) (killQueue 16)
    ∃ final heard turned, engine.play (fieldCalls stays .stereo) = some (final, heard) ∧
      engine.play (fieldCalls mirrored .stereo) = some (placed mirrored final, turned) ∧
      List.Forall₂ (HeardTurned exchange) heard turned :=
  stereo_field_mirrors 48000 smallWheel 16 (fieldCalls_placed _ _ _)

end Engine
end Rfofs
