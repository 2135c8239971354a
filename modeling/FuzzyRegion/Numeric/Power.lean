import FuzzyRegion.Numeric.Binary64
import Mathlib.Analysis.SpecialFunctions.Pow.Real

/-!
# Powers of binary64 data

A power of a rational is no rational in general, so it is rounded on the binary64 grid of the reals.
The power function of a platform is a parameter of what follows. A correctly rounded one returns the
exact real power of a positive base, rounded once.

## Main definitions

* `F64.ofReal`: the datum nearest to a nonnegative real
* `F64.CorrectlyRounded`: power functions that round the exact power once
* `F64.exactPower`: the power function defined by this property
-/

namespace Numeric

namespace F64

/-- The datum nearest to a nonnegative real, ties to even, infinity when it is too large. -/
noncomputable def ofReal (x : ℝ) : F64 :=
  ofMagnitude false (min ((gridOver ℝ).round x) infinityMagnitude)

theorem ofReal_of_le_one {x : ℝ} (h0 : 0 ≤ x) (h1 : x ≤ 1) :
    ofReal x = ofMagnitude false ((gridOver ℝ).round x) := by
  rw [ofReal, min_eq_left (lt_infinityMagnitude_of_le_one (round_le_one h0 h1)).le]

/-- The power of finite data, with a positive base, is the exact power rounded once. -/
def CorrectlyRounded (powf : F64 → F64 → F64) : Prop :=
  ∀ x y : F64, x.isFinite → y.isFinite → 0 < x.toRat →
    powf x y = ofReal ((x.toRat : ℝ) ^ (y.toRat : ℝ))

noncomputable def exactPower (x y : F64) : F64 := ofReal ((x.toRat : ℝ) ^ (y.toRat : ℝ))

theorem correctlyRounded_exactPower : CorrectlyRounded exactPower := fun _ _ _ _ _ => rfl

end F64

end Numeric
