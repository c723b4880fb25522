import Mathlib

namespace Rfofs
namespace Foundation

/-!
# Numerals

A numeral of an ordered field from two on carries a proof that it is at least two.  The
proofs for the numerals of the source, and for the pitch and the sample rate of the
examples, are declared here, so that a numeral is the same term in every module.
-/

/-- The numerals of the program in a form that instance search finds without counting. -/
instance twoAtLeastTwo : Nat.AtLeastTwo 2 := ⟨Nat.le_refl 2⟩

instance fourAtLeastTwo : Nat.AtLeastTwo 4 := ⟨by decide⟩

instance hundredAtLeastTwo : Nat.AtLeastTwo 100 := ⟨by decide⟩

instance pitchAtLeastTwo : Nat.AtLeastTwo 440 := ⟨by decide⟩

instance rateAtLeastTwo : Nat.AtLeastTwo 48000 := ⟨by decide⟩

end Foundation
end Rfofs
