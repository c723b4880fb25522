import Rfofs.Foundation.Numerals

namespace Rfofs
namespace Grain

/-!
# Requests that travel through the queues

The numeric fields are values of an arbitrary type `R`, which the queues only
carry.  The synthesis modules instantiate `R` with an ordered field; the queues
are proved for every `R`, so a development may as well put tags into these fields
and follow single submissions.
-/

/-- All parameters of a grain.  `id = 0` is fire-and-forget; any other id is
chosen by the caller and may be killed. -/
structure FofParams (R : Type*) where
  id : Nat
  startSample : Nat
  f : R
  gliss : R
  phi : R
  amp : R
  alpha : R
  beta : R
  fadeLevel : R
  fadeDur : R
  azm : R
  elev : R
  distance : R
  deriving DecidableEq, Repr

/-- A grain of which only the onset matters. -/
def FofParams.onset (startSample : Nat) : FofParams Nat :=
  ⟨0, startSample, 0, 0, 0, 0, 0, 0, 0, 0, 0, 0, 0⟩

/-- Request to fade out a tracked grain early. -/
structure FofKillRequest (R : Type*) where
  id : Nat
  fadeDur : R
  deriving DecidableEq, Repr

end Grain
end Rfofs
