import Rfofs.Grain.Calls

namespace Rfofs
namespace Grain

open Foundation

/-!
# How a grain comes to fade out

What is in force when a grain enters its fade-out (`FadeEntry`) decides the rest of its
life.  Which record that is can be read off the calls: the first kill decides, unless
the grain has faded out by itself before (`fadeEntry`).

Nothing here depends on how sums and products of samples are rounded.  The end of a
fade-out is the counter that the code computes from the length it has computed.
-/

/-- What was in force when a grain entered its fade-out: the counter, the length in samples,
and the level of the envelope. -/
structure FadeEntry (R : Type*) where
  tFo : Nat
  effectiveFadeDur : R
  envAtFo : R

variable {R : Type*}

/-- The counter at which the fade-out reaches zero.  The length is rounded up to a counter and
saturates there. -/
def FadeEntry.fadeoutEnd [Zero R] [LT R] [Max R] [Conversions R] (entry : FadeEntry R) : Nat :=
  entry.tFo + ceilU32 entry.effectiveFadeDur

namespace FofConstants

variable [One R] [Add R] [Sub R] [Mul R] [Div R] [NatCast R] [Pow R Int] [Sines R]
  (c : FofConstants R)

/-- The fade-out of a grain that nobody kills.  It begins with the end of the decay. -/
def naturalEntry : FadeEntry R where
  tFo := c.decayEnd
  effectiveFadeDur := c.params.fadeDur * c.sampleRate
  envAtFo := c.decayEnvAt c.decayEnd

/-- The fade-out of a grain that is killed at `t`.  A grain that has just used up
its attack still counts as attacking. -/
def killedEntry (t : Nat) (fadeDur : R) : FadeEntry R where
  tFo := t
  effectiveFadeDur := fadeDur * c.sampleRate
  envAtFo := if t ≤ c.attackEnd then c.attackRiseAt t * c.decayEnvAt t else c.decayEnvAt t

/-- The fade-out that the calls from `clock` on lead to: the first kill decides,
when it arrives before the natural fade-out. -/
def fadeEntry (clock : Nat) (calls : List (GrainCall R)) : FadeEntry R :=
  match GrainCall.firstKill clock calls with
  | some (arrival, fadeDur) =>
      if arrival - c.params.startSample ≤ c.decayEnd then
        c.killedEntry (arrival - c.params.startSample) fadeDur
      else
        c.naturalEntry
  | none => c.naturalEntry

variable {c}

/-- A kill that is still to come cannot have happened before. -/
theorem fadeEntry_late {clock : Nat} (before : clock - c.params.startSample ≤ c.decayEnd)
    (calls : List (GrainCall R)) :
    clock - c.params.startSample ≤ (c.fadeEntry clock calls).tFo := by
  unfold fadeEntry
  split
  · rename_i arrival fadeDur found
    have later := GrainCall.firstKill_clock found
    split
    · change _ ≤ arrival - c.params.startSample
      omega
    · exact before
  · exact before

theorem fadeEntry_tFo_le (clock : Nat) (calls : List (GrainCall R)) :
    (c.fadeEntry clock calls).tFo ≤ c.decayEnd := by
  unfold fadeEntry
  split
  · split
    · assumption
    · exact le_refl _
  · exact le_refl _

/-- After the end of the decay a kill comes too late. -/
theorem fadeEntry_natural {clock : Nat} (past : c.decayEnd < clock - c.params.startSample)
    (calls : List (GrainCall R)) : c.fadeEntry clock calls = c.naturalEntry := by
  unfold fadeEntry
  split
  · rename_i arrival fadeDur found
    have later := GrainCall.firstKill_clock found
    exact if_neg (by omega)
  · rfl

end FofConstants

namespace FofState

variable [Zero R] [LT R] [Max R] [Conversions R] {c : FofConstants R} {entry : FadeEntry R}
  {n : Nat} {s : FofState R}

/-- A grain `n` samples after its onset that has entered its fade-out, or has died of it. -/
structure Fading (c : FofConstants R) (entry : FadeEntry R) (n : Nat) (s : FofState R) :
    Prop where
  constants : s.toFofConstants = c
  envAtFo : s.envAtFo = entry.envAtFo
  tFo : s.tFo = entry.tFo
  effectiveFadeDur : s.effectiveFadeDur = entry.effectiveFadeDur
  fadeoutEnd : s.fadeoutEnd = entry.fadeoutEnd
  phase : (s.phase = .fadeOut ∧ s.t = n ∧ entry.tFo ≤ n ∧ n ≤ entry.fadeoutEnd) ∨
    (s.phase = .dead ∧ s.t = entry.fadeoutEnd ∧ entry.fadeoutEnd < n)

theorem Fading.entered (fading : Fading c entry n s) : entry.tFo ≤ n := by
  have ordered : entry.tFo ≤ entry.fadeoutEnd := Nat.le_add_right _ _
  rcases fading.phase with ⟨_, _, entered, _⟩ | ⟨_, _, past⟩
  · exact entered
  · exact ordered.trans past.le

/-- The counters of a fade-out that fits are computed without wrapping. -/
theorem fading_enterFadeOut [Mul R] (constants : s.toFofConstants = c) (t : s.t = entry.tFo)
    {fadeDur : R} (duration : entry.effectiveFadeDur = fadeDur * c.sampleRate)
    (fits : entry.fadeoutEnd < 2 ^ 32) :
    Fading c entry entry.tFo (s.enterFadeOut entry.envAtFo fadeDur) := by
  subst constants
  have ordered : entry.tFo ≤ entry.fadeoutEnd := Nat.le_add_right _ _
  refine ⟨rfl, rfl, t, duration.symm, ?_, Or.inl ⟨rfl, t, le_refl _, ordered⟩⟩
  change wrappingAdd 32 s.t (ceilU32 (fadeDur * s.sampleRate)) = entry.fadeoutEnd
  rw [← duration, t]
  exact wrappingAdd_eq fits

end FofState

/-! ## Exact lengths -/

section Lengths

variable [Field R] [LinearOrder R] [FloorRing R] [IsStrictOrderedRing R]

theorem asU32_intCast {z : Int} (fits : z.toNat ≤ u32Max) : asU32 (z : R) = z.toNat := by
  change min ⌊(z : R)⌋.toNat u32Max = z.toNat
  rw [Int.floor_intCast]
  exact Nat.min_eq_left fits

theorem ceilU32_eq {x : R} (fits : ⌈max x 0⌉.toNat ≤ u32Max) : ceilU32 x = ⌈max x 0⌉.toNat :=
  asU32_intCast fits

theorem ceilU32_nonpos {x : R} (nonpositive : x ≤ 0) : ceilU32 x = 0 := by
  have flat : ⌈max x 0⌉.toNat = 0 := by
    rw [max_eq_right nonpositive, Int.ceil_zero, Int.toNat_zero]
  rw [ceilU32_eq (by rw [flat]; exact Nat.zero_le _), flat]

/-- A length that is a counter is kept. -/
theorem ceilU32_whole {x : R} {n : Nat} (whole : x = n) (fits : n ≤ u32Max) : ceilU32 x = n := by
  have rounded : ⌈max x 0⌉.toNat = n := by
    rw [whole, max_eq_left (Nat.cast_nonneg n), Int.ceil_natCast, Int.toNat_natCast]
  rw [ceilU32_eq (by rwa [rounded]), rounded]

theorem ceilU32_natCast {n : Nat} (fits : n ≤ u32Max) : ceilU32 (n : R) = n :=
  ceilU32_whole rfl fits

/-- A length beyond the largest counter is cut to it. -/
theorem ceilU32_saturated {x : R} (long : (u32Max : R) ≤ x) : ceilU32 x = u32Max := by
  have rounded : (u32Max : Int) ≤ ⌈max x 0⌉ := by
    have reached : ((u32Max : Int) : R) ≤ (⌈max x 0⌉ : R) := by
      rw [Int.cast_natCast]
      exact long.trans ((le_max_left x 0).trans (Int.le_ceil _))
    exact Int.cast_le.mp reached
  change min ⌊((⌈max x 0⌉ : Int) : R)⌋.toNat u32Max = u32Max
  rw [Int.floor_intCast]
  exact Nat.min_eq_right (by omega)

end Lengths

end Grain
end Rfofs
