import Rfofs.Foundation.Transition
import Rfofs.Grain.Lifetime

namespace Rfofs
namespace Grain

open Foundation

/-!
# Where a fade-out ends

A fade-out is entered at two places, by a kill and at the end of the decay in the middle
of a block.  Both places compute its end alike: the rounded length is added to the
counter.  The length is rounded by a conversion that saturates, the sum is not.

What was computed can be read off the grain afterwards, because the fields of the
fade-out are never written again (`fillBlock_fadeFields`).  `FadeEndSafe` is therefore a
statement about states between calls.  A call leads to a safe state exactly when the
fade-out that it enters, if any, ends within the range of the counter (`FadeFits`), and
from one call this passes to runs of any length.

The calls of this module may come at any position, so the states they reach are all the
states that a grain can have between two calls.  Nothing is assumed of the arithmetic:
the length of a fade-out is the product as the program has rounded it.
-/

variable {R : Type*}

/-- A call on a grain, with the position of a block as its caller gives it. -/
inductive FofCall (R : Type*) where
  | fillBlock (blockStart : Nat) (buf : List R)
  | triggerFadeOut (fadeDur : R)

namespace FofState

/-- The fields that are written when the fade-out is entered, but for the envelope. -/
def fadeFields (s : FofState R) : Nat × R × Nat := (s.tFo, s.effectiveFadeDur, s.fadeoutEnd)

/-- The counter of a grain that does not fade out lies within its phase, and the ends of
the phases are counters. -/
structure Counted (s : FofState R) : Prop where
  ordered : s.attackEnd ≤ s.decayEnd
  bounded : s.decayEnd ≤ u32Max
  attack : s.phase = .attack → s.t ≤ s.attackEnd
  decay : s.phase = .decay → s.t ≤ s.decayEnd

theorem Counted.t_le {s : FofState R} (counted : s.Counted) (unfaded : s.Unfaded) :
    s.t ≤ s.decayEnd := by
  rcases (unfaded_iff s).mp unfaded with phase | phase
  · exact (counted.attack phase).trans counted.ordered
  · exact counted.decay phase

theorem Counted.faded {s s' : FofState R} (counted : s.Counted)
    (constants : s'.toFofConstants = s.toFofConstants) (faded : ¬ s'.Unfaded) : s'.Counted := by
  rw [unfaded_iff, not_or] at faded
  refine ⟨?_, ?_, fun phase => absurd phase faded.1, fun phase => absurd phase faded.2⟩
  · rw [constants]
    exact counted.ordered
  · rw [constants]
    exact counted.bounded

/-- The number of samples of a block that follow the onset. -/
def samplesOf (s : FofState R) (blockStart : Nat) (buf : List R) : Nat :=
  buf.length - (s.params.startSample - blockStart)

theorem length_drop_samplesOf (s : FofState R) (blockStart : Nat) (buf : List R) :
    (buf.drop (s.params.startSample - blockStart)).length = s.samplesOf blockStart buf :=
  List.length_drop

/-- The phases that have an end. -/
theorem phaseEnd_cases {s : FofState R} {phaseEnd : Nat} (alive : s.phaseEnd = some phaseEnd) :
    (s.phase = .attack ∧ phaseEnd = s.attackEnd) ∨ (s.phase = .decay ∧ phaseEnd = s.decayEnd) ∨
      (s.phase = .fadeOut ∧ phaseEnd = s.fadeoutEnd) := by
  unfold FofState.phaseEnd at alive
  cases phase : s.phase <;> simp_all

theorem Counted.advance {s : FofState R} (counted : s.Counted) {phaseEnd k : Nat}
    (alive : s.phaseEnd = some phaseEnd) (within : s.t + k ≤ phaseEnd) (acc : R) :
    Counted { s with decayAcc := acc, t := s.t + k } := by
  refine ⟨counted.ordered, counted.bounded, ?_, ?_⟩
  · intro phase
    have attacking : s.phase = .attack := phase
    simp only [FofState.phaseEnd, attacking, Option.some.injEq] at alive
    exact alive ▸ within
  · intro phase
    have decaying : s.phase = .decay := phase
    simp only [FofState.phaseEnd, decaying, Option.some.injEq] at alive
    exact alive ▸ within

section Counters

variable [Zero R] [Max R] [LT R] [Conversions R]

/-! ## Safe ends -/

/-- The end of the fade-out is the sum that was meant: adding the length did not
overflow, the fade-out does not end before it begins, and one of positive length has a
sample. -/
structure FadeEndSafe (s : FofState R) : Prop where
  noOverflow : checkedAdd 32 s.tFo (ceilU32 s.effectiveFadeDur) = some s.fadeoutEnd
  notBefore : s.tFo ≤ s.fadeoutEnd
  audible : 0 < s.effectiveFadeDur → s.tFo < s.fadeoutEnd

theorem fadeEndSafe_congr {s s' : FofState R} (fields : s'.fadeFields = s.fadeFields) :
    s'.FadeEndSafe ↔ s.FadeEndSafe := by
  simp only [fadeFields, Prod.mk.injEq] at fields
  rcases fields with ⟨tFo, duration, fadeoutEnd⟩
  constructor
  · intro safe
    exact ⟨by rw [← tFo, ← duration, ← fadeoutEnd]; exact safe.noOverflow,
      by rw [← tFo, ← fadeoutEnd]; exact safe.notBefore,
      by rw [← tFo, ← duration, ← fadeoutEnd]; exact safe.audible⟩
  · intro safe
    exact ⟨by rw [tFo, duration, fadeoutEnd]; exact safe.noOverflow,
      by rw [tFo, fadeoutEnd]; exact safe.notBefore,
      by rw [tFo, duration, fadeoutEnd]; exact safe.audible⟩

/-- A fade-out is safe exactly when its end lies within the range of the counter. -/
theorem fadeEndSafe_iff {s : FofState R}
    (computed : s.fadeoutEnd = wrappingAdd 32 s.tFo (ceilU32 s.effectiveFadeDur)) :
    s.FadeEndSafe ↔ s.tFo + ceilU32 s.effectiveFadeDur < 2 ^ 32 := by
  constructor
  · intro safe
    by_contra overflow
    have failed : checkedAdd 32 s.tFo (ceilU32 s.effectiveFadeDur) = none := if_neg overflow
    have added := safe.noOverflow
    rw [failed] at added
    cases added
  · intro fits
    rw [wrappingAdd_eq fits] at computed
    refine ⟨?_, ?_, ?_⟩
    · rw [checkedAdd_eq_some fits, computed]
    · omega
    · intro positive
      have length := ceilU32_positive positive
      omega

/-! ## Dying within a block -/

variable [Mul R]

/-- The fields of a fade-out that is entered at the end of the decay. -/
def naturalFade (c : FofConstants R) : Nat × R × Nat :=
  (c.decayEnd, c.params.fadeDur * c.sampleRate,
    wrappingAdd 32 c.decayEnd (ceilU32 (c.params.fadeDur * c.sampleRate)))

/-- Rendering `n` more samples reaches past the end of the fade-out. -/
def DiesWithin (s : FofState R) (n : Nat) : Prop :=
  match s.phase with
  | .attack => s.decayEnd < s.t + n ∧ (naturalFade s.toFofConstants).2.2 < s.t + n
  | .decay => s.decayEnd < s.t + n ∧ (naturalFade s.toFofConstants).2.2 < s.t + n
  | .fadeOut => 0 < n ∧ s.fadeoutEnd < s.t + n
  | .dead => True

theorem diesWithin_advance {s : FofState R} {phaseEnd k n : Nat}
    (alive : s.phaseEnd = some phaseEnd) (within : s.t + k ≤ phaseEnd) (short : k ≤ n)
    (positive : 0 < n) (acc : R) :
    DiesWithin { s with decayAcc := acc, t := s.t + k } (n - k) ↔ s.DiesWithin n := by
  have total : s.t + k + (n - k) = s.t + n := by omega
  rcases phaseEnd_cases alive with ⟨phase, ends⟩ | ⟨phase, ends⟩ | ⟨phase, ends⟩
  · simp only [DiesWithin, phase, total]
  · simp only [DiesWithin, phase, total]
  · simp only [DiesWithin, phase, total]
    omega

variable [Pow R Int]

theorem Counted.transitionPhase {s : FofState R} (counted : s.Counted) {phaseEnd : Nat}
    (alive : s.phaseEnd = some phaseEnd) : s.transitionPhase.Counted := by
  rcases phaseEnd_cases alive with ⟨phase, ends⟩ | ⟨phase, ends⟩ | ⟨phase, ends⟩
  · simp only [FofState.transitionPhase, phase]
    refine ⟨counted.ordered, counted.bounded, ?_, ?_⟩
    · intro attacking
      cases attacking
    · intro _
      exact (counted.attack phase).trans counted.ordered
  · simp only [FofState.transitionPhase, phase]
    refine ⟨counted.ordered, counted.bounded, ?_, ?_⟩
    · intro attacking
      cases attacking
    · intro decaying
      cases decaying
  · simp only [FofState.transitionPhase, phase]
    refine ⟨counted.ordered, counted.bounded, ?_, ?_⟩
    · intro attacking
      cases attacking
    · intro decaying
      cases decaying

theorem diesWithin_transition {s : FofState R} (counted : s.Counted) {phaseEnd n : Nat}
    (alive : s.phaseEnd = some phaseEnd) (due : phaseEnd ≤ s.t) (positive : 0 < n) :
    s.transitionPhase.DiesWithin n ↔ s.DiesWithin n := by
  rcases phaseEnd_cases alive with ⟨phase, ends⟩ | ⟨phase, ends⟩ | ⟨phase, ends⟩
  · simp only [DiesWithin, transitionPhase, phase]
  · have reached : s.t = s.decayEnd := by
      have within := counted.decay phase
      omega
    simp only [DiesWithin, transitionPhase, phase, enterFadeOut, naturalFade, reached]
    exact and_congr_left' (by omega)
  · simp only [DiesWithin, transitionPhase, phase, true_iff]
    omega

end Counters

section Calls

variable [Zero R] [One R] [Add R] [Sub R] [Mul R] [Div R] [NatCast R] [Max R] [LT R]
  [DecidableLT R] [Pow R Int] [RealOps R] [Conversions R] [Sines R]

/-- A call, as it changes the grain. -/
def call (s : FofState R) : FofCall R → FofState R
  | .fillBlock blockStart buf => (s.fillBlock blockStart buf).1
  | .triggerFadeOut fadeDur => s.triggerFadeOut fadeDur

def afterCalls (s : FofState R) (calls : List (FofCall R)) : FofState R := calls.foldl call s

/-! ## The loop of a block -/

/-- The rule of invariants for the loop: they hold across due transitions, and across
samples that lie within a phase. -/
theorem fillLoop_invariant (inv : FofState R → Prop)
    (transition : ∀ s phaseEnd, s.phaseEnd = some phaseEnd → phaseEnd ≤ s.t → inv s →
      inv s.transitionPhase)
    (run : ∀ (s : FofState R) phaseEnd k acc, s.phaseEnd = some phaseEnd → s.t + k ≤ phaseEnd →
      inv s → inv { s with decayAcc := acc, t := s.t + k })
    {s : FofState R} (begins : inv s) (buf : List R) : inv (s.fillLoop buf).1 := by
  fun_induction fillLoop s buf with
  | case1 s => exact begins
  | case2 s x rest dead => exact begins
  | case3 s x rest phaseEnd alive remaining spent lower =>
      rename_i ih
      exact ih (transition s phaseEnd alive (by omega) begins)
  | case4 s x rest phaseEnd alive remaining left runLen _ later =>
      rename_i ih
      have inPhase : runLen ≤ phaseEnd - s.t := min_le_left _ _
      rcases s.process_advance ((x :: rest).take runLen) runLen with ⟨acc, ran⟩
      have ended := run s phaseEnd runLen acc alive (by omega) begins
      rw [← ran] at ended
      exact ih ended

/-- A block is its loop, but for the displayed carrier. -/
theorem fillBlock_withCarrier {s : FofState R} (alive : s.phase ≠ .dead) (blockStart : Nat)
    (buf : List R) : ∃ carrierPhase fCurrent, (s.fillBlock blockStart buf).1 =
      (s.fillLoop (buf.drop (s.params.startSample - blockStart))).1.withCarrier
        carrierPhase fCurrent := by
  rw [fillBlock_alive alive]
  exact ⟨_, _, rfl⟩

/-- The fields of a fade-out are not written again. -/
theorem fillLoop_fadeFields {s : FofState R} (faded : ¬ s.Unfaded) (buf : List R) :
    ¬ (s.fillLoop buf).1.Unfaded ∧ (s.fillLoop buf).1.fadeFields = s.fadeFields := by
  refine fillLoop_invariant (fun s' => ¬ s'.Unfaded ∧ s'.fadeFields = s.fadeFields)
    ?_ (fun s' _ _ _ _ _ held => held) ⟨faded, rfl⟩ buf
  rintro s' phaseEnd alive due ⟨faded, fields⟩
  rw [unfaded_iff, not_or] at faded
  have fading : s'.phase = .fadeOut := by
    rcases phaseEnd_cases alive with ⟨phase, _⟩ | ⟨phase, _⟩ | ⟨phase, _⟩
    · exact absurd phase faded.1
    · exact absurd phase faded.2
    · exact phase
  simp only [transitionPhase, fading]
  exact ⟨by simp [unfaded_iff], fields⟩

theorem fillBlock_fadeFields {s : FofState R} (faded : ¬ s.Unfaded) (blockStart : Nat)
    (buf : List R) : ¬ (s.fillBlock blockStart buf).1.Unfaded ∧
      (s.fillBlock blockStart buf).1.fadeFields = s.fadeFields := by
  by_cases dead : s.phase = .dead
  · have same : s.fillBlock blockStart buf = (s, buf) := if_pos dead
    rw [same]
    exact ⟨faded, rfl⟩
  · rcases fillBlock_withCarrier dead blockStart buf with ⟨carrierPhase, fCurrent, filled⟩
    rw [filled]
    exact fillLoop_fadeFields faded _

/-- Inside a block a grain enters its fade-out at the end of its decay only. -/
theorem fillLoop_entered {s : FofState R} (counted : s.Counted) (unfaded : s.Unfaded)
    (buf : List R) : (s.fillLoop buf).1.Counted ∧
      (¬ (s.fillLoop buf).1.Unfaded →
        (s.fillLoop buf).1.fadeFields = naturalFade s.toFofConstants) := by
  have held := fillLoop_invariant (s := s) (fun s' => s'.toFofConstants = s.toFofConstants ∧
    s'.Counted ∧ (¬ s'.Unfaded → s'.fadeFields = naturalFade s.toFofConstants))
    ?_ ?_ ⟨rfl, counted, fun faded => absurd unfaded faded⟩ buf
  · exact held.2
  · rintro s' phaseEnd alive due ⟨constants, counted, entered⟩
    refine ⟨s'.transitionPhase_constants.trans constants,
      counted.transitionPhase alive, ?_⟩
    rcases phaseEnd_cases alive with ⟨phase, ends⟩ | ⟨phase, ends⟩ | ⟨phase, ends⟩
    · simp only [transitionPhase, phase]
      intro faded
      exact absurd ((unfaded_iff _).mpr (Or.inr rfl)) faded
    · have reached : s'.t = s'.decayEnd := by
        have within := counted.decay phase
        omega
      simp only [transitionPhase, phase]
      intro _
      rw [← constants]
      simp only [fadeFields, enterFadeOut, naturalFade, reached]
    · simp only [transitionPhase, phase]
      exact fun _ => entered (by simp [unfaded_iff, phase])
  · rintro s' phaseEnd k acc alive within ⟨constants, counted, entered⟩
    exact ⟨constants, counted.advance alive within acc, entered⟩

/-- A block leaves a grain unfaded exactly when it does not reach past the end of the
decay. -/
theorem fillBlock_unfaded_iff {s : FofState R} (counted : s.Counted) (unfaded : s.Unfaded)
    (blockStart : Nat) (buf : List R) :
    (s.fillBlock blockStart buf).1.Unfaded ↔ s.t + s.samplesOf blockStart buf ≤ s.decayEnd := by
  rw [Unfaded, fillBlock_phase unfaded.alive, ← s.length_drop_samplesOf, ← Unfaded]
  constructor
  · intro filled
    have ended := (fillLoop_entered counted unfaded
      (buf.drop (s.params.startSample - blockStart))).1.t_le filled
    rw [fillLoop_constants] at ended
    rcases s.fillLoop_t (buf.drop (s.params.startSample - blockStart)) with t | ⟨dead, _⟩
    · rwa [t] at ended
    · rw [unfaded_iff, dead] at filled
      simp at filled
  · exact fillLoop_unfaded unfaded counted.ordered _

theorem Counted.call {s : FofState R} (counted : s.Counted) (call : FofCall R) :
    (s.call call).Counted := by
  cases call with
  | fillBlock blockStart buf =>
      by_cases unfaded : s.Unfaded
      · rcases fillBlock_withCarrier unfaded.alive blockStart buf with ⟨carrierPhase, fCurrent, filled⟩
        have looped := (fillLoop_entered counted unfaded
          (buf.drop (s.params.startSample - blockStart))).1
        rw [FofState.call, filled]
        exact ⟨looped.ordered, looped.bounded, looped.attack, looped.decay⟩
      · exact counted.faded (s.fillBlock_constants _ _) (fillBlock_fadeFields unfaded _ _).1
  | triggerFadeOut fadeDur =>
      exact counted.faded (s.triggerFadeOut_constants _) (s.triggerFadeOut_faded fadeDur)

theorem fillLoop_dead_iff {s : FofState R} (counted : s.Counted) (buf : List R) :
    (s.fillLoop buf).1.phase = .dead ↔ s.DiesWithin buf.length := by
  fun_induction fillLoop s buf with
  | case1 s =>
      have within := counted.t_le
      rw [unfaded_iff] at within
      unfold DiesWithin
      cases phase : s.phase <;> simp_all
  | case2 s x rest dead =>
      unfold FofState.phaseEnd at dead
      unfold DiesWithin
      cases phase : s.phase <;> simp_all
  | case3 s x rest phaseEnd alive remaining spent lower =>
      rename_i ih
      rw [ih (counted.transitionPhase alive)]
      exact diesWithin_transition counted alive (by omega) (Nat.succ_pos _)
  | case4 s x rest phaseEnd alive remaining left runLen run later =>
      rename_i ih
      rcases s.process_advance ((x :: rest).take runLen) runLen with ⟨acc, ran⟩
      have bounded : runLen ≤ (x :: rest).length := min_le_right _ _
      have inPhase : runLen ≤ phaseEnd - s.t := min_le_left _ _
      change (fillLoop { run.2 with t := run.2.t + runLen } _).1.phase = .dead ↔ _
      rw [ran] at ih ⊢
      rw [ih (counted.advance alive (by omega) acc), List.length_drop]
      exact diesWithin_advance alive (by omega) bounded (Nat.succ_pos _) acc

/-- Which grains a block kills, from their counters alone.  The samples and the envelope do
not matter. -/
theorem fillBlock_dead_iff {s : FofState R} (counted : s.Counted) (blockStart : Nat)
    (buf : List R) : (s.fillBlock blockStart buf).1.phase = .dead ↔
      s.DiesWithin (s.samplesOf blockStart buf) := by
  by_cases dead : s.phase = .dead
  · have same : s.fillBlock blockStart buf = (s, buf) := if_pos dead
    simp only [same, DiesWithin, dead]
  · rw [fillBlock_phase dead, fillLoop_dead_iff counted, length_drop_samplesOf]

end Calls

end FofState

variable [Zero R] [One R] [Add R] [Sub R] [Mul R] [Div R] [NatCast R] [Max R] [LT R]
  [DecidableLT R] [Pow R Int] [RealOps R] [Conversions R] [Sines R]

/-- The fade-out that a call enters, if any, ends within the range of the counter. -/
def FofCall.FadeFits (s : FofState R) : FofCall R → Prop
  | .fillBlock blockStart buf =>
      s.Unfaded → s.decayEnd < s.t + s.samplesOf blockStart buf →
        s.decayEnd + ceilU32 (s.params.fadeDur * s.sampleRate) < 2 ^ 32
  | .triggerFadeOut fadeDur =>
      s.Unfaded → s.t + ceilU32 (fadeDur * s.sampleRate) < 2 ^ 32

namespace FofState

/-- Across one call.  Only the call that enters the fade-out can break the invariant. -/
theorem fadeEnd_step {s : FofState R} (counted : s.Counted)
    (safe : ¬ s.Unfaded → s.FadeEndSafe) (call : FofCall R) :
    (¬ (s.call call).Unfaded → (s.call call).FadeEndSafe) ↔ call.FadeFits s := by
  by_cases unfaded : s.Unfaded
  · cases call with
    | fillBlock blockStart buf =>
        have stays := fillBlock_unfaded_iff counted unfaded blockStart buf
        have entered : ¬ (s.fillBlock blockStart buf).1.Unfaded →
            (s.fillBlock blockStart buf).1.fadeFields = naturalFade s.toFofConstants := by
          rcases fillBlock_withCarrier unfaded.alive blockStart buf with
            ⟨carrierPhase, fCurrent, filled⟩
          rw [filled]
          exact (fillLoop_entered counted unfaded _).2
        simp only [FofState.call, FofCall.FadeFits, unfaded, true_imp_iff, stays, not_le]
        refine imp_congr_right fun past => ?_
        have fields := entered (fun unfaded => absurd (stays.mp unfaded) (Nat.not_le_of_lt past))
        simp only [fadeFields, naturalFade, Prod.mk.injEq] at fields
        rcases fields with ⟨tFo, duration, fadeoutEnd⟩
        rw [fadeEndSafe_iff (by rw [tFo, duration, fadeoutEnd]), tFo, duration]
    | triggerFadeOut fadeDur =>
        have killed := triggerFadeOut_of_heard ((unfaded_iff s).mp unfaded) fadeDur
        have faded := s.triggerFadeOut_faded fadeDur
        simp only [FofState.call, FofCall.FadeFits, unfaded, faded, not_false_eq_true, true_imp_iff]
        rw [killed]
        exact fadeEndSafe_iff rfl
  · cases call with
    | fillBlock blockStart buf =>
        have kept := fillBlock_fadeFields unfaded blockStart buf
        simp only [FofState.call, FofCall.FadeFits, unfaded, false_imp_iff, iff_true]
        exact fun _ => (fadeEndSafe_congr kept.2).mpr (safe unfaded)
    | triggerFadeOut fadeDur =>
        have same := triggerFadeOut_of_faded unfaded fadeDur
        simp only [FofState.call, FofCall.FadeFits, unfaded, same, false_imp_iff, iff_true]
        exact fun _ => safe unfaded

end FofState

section Spawned

variable [Neg R] [LE R] [DecidableEq R] [DecidableLE R]

omit [Add R] [Pow R Int] [Sines R] in
theorem FofState.Counted.spawn (params : FofParams R) (sampleRate : R) :
    (FofState.spawn params sampleRate).Counted where
  ordered := Nat.le_max_right _ _
  bounded := by
    refine Nat.max_le.mpr ⟨?_, ceilU32_le _⟩
    split
    · exact ceilU32_le _
    · exact Nat.le_refl _
  attack := fun _ => Nat.zero_le _
  decay := nofun

/-- After every call of a run the end of the fade-out is safe, for all calls at all
positions, exactly when no call of the run enters a fade-out that ends beyond the range of
the counter. -/
theorem fade_end_safe_iff (params : FofParams R) (sampleRate : R)
    (calls : List (FofCall R)) :
    let s := FofState.spawn params sampleRate
    (∀ earlier later, earlier ++ later = calls →
      ¬ (s.afterCalls earlier).Unfaded → (s.afterCalls earlier).FadeEndSafe) ↔
    ∀ earlier call later, earlier ++ call :: later = calls →
      call.FadeFits (s.afterCalls earlier) := by
  intro s
  have unfaded : s.Unfaded := (FofState.unfaded_iff s).mpr (Or.inl rfl)
  exact foldl_good_iff FofState.call FofState.Counted
    (fun s => ¬ s.Unfaded → s.FadeEndSafe) (fun s call => call.FadeFits s)
    (fun _ call counted => counted.call call)
    (fun _ call counted safe => FofState.fadeEnd_step counted safe call)
    (FofState.Counted.spawn params sampleRate) (fun faded => absurd unfaded faded) calls

end Spawned

/-- A grain without a decay of its own, in a block that is short of the last counter. -/
theorem sustained_block (params : FofParams ℝ) (sampleRate : ℝ) (endless : params.alpha = 0)
    (starts : params.startSample = 0) (buf : List ℝ) (short : buf.length ≤ u32Max) :
    ((FofState.spawn params sampleRate).fillBlock 0 buf).1.Unfaded ∧
      ((FofState.spawn params sampleRate).fillBlock 0 buf).1.t = buf.length := by
  have attacking : (FofState.spawn params sampleRate).Unfaded :=
    (FofState.unfaded_iff _).mpr (Or.inl rfl)
  have samples : (FofState.spawn params sampleRate).samplesOf 0 buf = buf.length := by
    change buf.length - (params.startSample - 0) = buf.length
    omega
  have endOfDecay : u32Max ≤ (FofState.spawn params sampleRate).decayEnd := by
    refine le_trans (le_of_eq ?_) (Nat.le_max_left _ _)
    rw [if_neg (fun both => absurd both.1 (by rw [endless]; exact lt_irrefl 0))]
  have unfaded := (FofState.fillBlock_unfaded_iff (FofState.Counted.spawn params sampleRate)
    attacking 0 buf).mpr (by
      rw [samples]
      change 0 + buf.length ≤ _
      omega)
  refine ⟨unfaded, ?_⟩
  rcases FofState.fillBlock_t (s := FofState.spawn params sampleRate) nofun 0 buf with t | ⟨dead, _⟩
  · rw [t]
    change 0 + (buf.length - (params.startSample - 0)) = buf.length
    omega
  · rw [FofState.unfaded_iff, dead] at unfaded
    simp at unfaded

/-- A kill after two samples whose fade-out takes three. -/
theorem fade_end_safe_short_kill :
    let params : FofParams ℝ := ⟨1, 0, 440, 1, 0, 1, 0, 2, 0, 3, 0, 0, 1⟩
    let b := (FofState.spawn params 1).afterCalls [.fillBlock 0 [0, 0], .triggerFadeOut 3]
    ¬ b.Unfaded → b.FadeEndSafe := by
  intro params b
  have filled := sustained_block params 1 rfl rfl [0, 0] (by decide)
  have duration : ceilU32 ((3 : ℝ) * 1) = 3 := by
    have counter : ((3 : ℝ) * 1) = ((3 : Nat) : ℝ) := by norm_num
    rw [counter, ceilU32_natCast (by decide)]
  have fits : ∀ earlier call later, earlier ++ call :: later =
      [FofCall.fillBlock 0 [0, 0], .triggerFadeOut 3] →
        call.FadeFits ((FofState.spawn params 1).afterCalls earlier) := by
    intro earlier call later split
    rcases earlier with _ | ⟨first, _ | ⟨second, earlier⟩⟩
    · cases split
      intro unfaded past
      have stays := (FofState.fillBlock_unfaded_iff (FofState.Counted.spawn params 1) unfaded
        0 [0, 0]).mp filled.1
      exact absurd stays (Nat.not_le_of_lt past)
    · cases split
      intro _
      change ((FofState.spawn params 1).fillBlock 0 [0, 0]).1.t + ceilU32 (3 * _) < 2 ^ 32
      have rate : ((FofState.spawn params 1).fillBlock 0 [0, 0]).1.sampleRate = 1 :=
        congrArg FofConstants.sampleRate (FofState.fillBlock_constants _ _ _)
      change ((FofState.spawn params 1).fillBlock 0 [0, 0]).1.t +
        ceilU32 (3 * ((FofState.spawn params 1).fillBlock 0 [0, 0]).1.sampleRate) < 2 ^ 32
      rw [filled.2, rate, duration]
      decide
    · simp at split
  exact (fade_end_safe_iff params 1 _).mpr fits _ [] rfl

/-- A sustained grain is killed after five samples, and its fade-out is to take a million
seconds.  The length is cut to the largest counter, the sum wraps to four, and the grain
is over before the next sample. -/
theorem long_kill_dies_at_once :
    let params : FofParams ℝ := ⟨1, 0, 440, 1, 0, 1, 0, 2, 0, 3, 0, 0, 1⟩
    let b := (FofState.spawn params 48000).afterCalls
      [.fillBlock 0 [0, 0, 0, 0, 0], .triggerFadeOut 1000000]
    0 < b.effectiveFadeDur ∧ b.tFo = 5 ∧ b.fadeoutEnd = 4 ∧ ¬ b.Unfaded ∧ ¬ b.FadeEndSafe ∧
      b.settle.phase = .dead := by
  intro params b
  have filled := sustained_block params 48000 rfl rfl [0, 0, 0, 0, 0] (by decide)
  have rate : ((FofState.spawn params 48000).fillBlock 0 [0, 0, 0, 0, 0]).1.sampleRate = 48000 :=
    congrArg FofConstants.sampleRate (FofState.fillBlock_constants _ _ _)
  have killed : b = ((FofState.spawn params 48000).fillBlock 0 [0, 0, 0, 0, 0]).1.enterFadeOut
      ((FofState.spawn params 48000).fillBlock 0 [0, 0, 0, 0, 0]).1.envelope 1000000 :=
    FofState.triggerFadeOut_of_heard ((FofState.unfaded_iff _).mp filled.1) 1000000
  have tFo : b.tFo = 5 := by
    rw [killed]
    exact filled.2
  have now : b.t = 5 := by
    rw [killed]
    exact filled.2
  have duration : b.effectiveFadeDur = 1000000 * 48000 := by
    rw [killed]
    exact congrArg (1000000 * ·) rate
  have long : ceilU32 b.effectiveFadeDur = u32Max := by
    apply ceilU32_saturated
    rw [duration, u32Max]
    norm_num
  have computed : b.fadeoutEnd = wrappingAdd 32 b.tFo (ceilU32 b.effectiveFadeDur) := by
    rw [killed]
    rfl
  have phase : b.phase = .fadeOut := by
    rw [killed]
    rfl
  have ends : b.fadeoutEnd = 4 := by
    rw [computed, tFo, long]
    rfl
  refine ⟨by rw [duration]; norm_num, tFo, ends, ?_, ?_, ?_⟩
  · rw [FofState.unfaded_iff, phase]
    decide
  · rw [FofState.fadeEndSafe_iff computed, tFo, long]
    decide
  · have alive : b.phaseEnd = some 4 := by rw [FofState.phaseEnd, phase, ← ends]
    have died : b.settleStep.phase = .dead := by
      rw [FofState.settleStep_of_due alive (by rw [now]; decide), FofState.transitionPhase, phase]
    rw [← FofState.settle_settleStep, FofState.settle_of_dead (FofState.phaseEnd_of_dead died), died]

end Grain
end Rfofs
