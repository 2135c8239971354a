import FuzzyRegion.Core.Mock
import FuzzyRegion.Core.RoundedRemap
import FuzzyRegion.Numeric.Power

/-!
# Power transforms

Concentration raises the alphas to an accepted power, dilation to the rounded reciprocal of one.
Neither looks at the alphas first. A dilated alpha is no lower than it was, so dilation always
returns. Concentration returns exactly when no power of an alpha falls to half the least subnormal,
and panics otherwise.

## Main definitions

* `PowerTransform`: concentration and dilation, with the exponent that each one uses
* `powerOf`: the exact power of an alpha

## Main results

* `PowerTransform.exists_run_iff`: when a power transform returns
* `concentrate_dilate_return_iff`: so dilation always does, and concentration not always
-/

namespace FuzzyRegion

open Numeric Fallible

/-! ## Accepted powers -/

/-- The accepted powers are the finite ones above one. -/
theorem validateMembershipPower_eq_ok_iff {F : Type} [LawfulScalar F] {power : F} :
    validateMembershipPower power = .ok () ↔
      Scalar.isFinite power = true ∧ 1 < LawfulScalar.toRat power := by
  unfold validateMembershipPower
  by_cases hfinite : Scalar.isFinite power = true
  · have hle := LawfulScalar.le_iff hfinite LawfulScalar.isFinite_one
    rw [LawfulScalar.toRat_one] at hle
    by_cases h : Scalar.le power Scalar.one = true
    · simp [hfinite, h, hle.mp h]
    · simp [hfinite, h, not_le.mp (hle.not.mp h)]
  · simp [hfinite]

/-- The transforms by powers. -/
inductive PowerTransform where
  | concentrate
  | dilate
deriving DecidableEq

namespace PowerTransform

variable {F G : Type} [Scalar F]

def run (t : PowerTransform) (powf : F → F → F) (v : Fuzzyregion F G) (power : F) :
    Outcome (MembershipTransformError F) (Fuzzyregion F G) :=
  match t with
  | concentrate => v.concentrateMembership powf power
  | dilate => v.dilateMembership powf power

/-- The exponent that the transform passes to the power function. -/
def exponent (t : PowerTransform) (power : F) : F :=
  match t with
  | concentrate => power
  | dilate => Scalar.div Scalar.one power

/-- Both transforms check the power and remap by one exponent. -/
theorem run_eq (t : PowerTransform) (powf : F → F → F) (v : Fuzzyregion F G) (power : F) :
    t.run powf v power = (validateMembershipPower power).mapError .error >>= fun _ =>
      v.remapMembershipValues fun alpha => powf alpha.value (t.exponent power) := by
  cases t <;> rfl

end PowerTransform

/-! ## Powers of alphas -/

/-- The exact power of an alpha. -/
noncomputable def powerOf (y : F64) (a : Alpha F64) : ℝ := (a.toRat : ℝ) ^ (y.toRat : ℝ)

namespace Fuzzyregion

variable {G : Type} {v r : Fuzzyregion F64 G}

theorem cast_toRat_mem (a : Alpha F64) : (0 : ℝ) < a.toRat ∧ (a.toRat : ℝ) ≤ 1 := by
  refine ⟨Rat.cast_pos.mpr a.toRat_pos, ?_⟩
  exact_mod_cast a.toRat_le_one

theorem powerOf_mem {y : F64} (hy : 0 ≤ y.toRat) (a : Alpha F64) :
    0 ≤ powerOf y a ∧ powerOf y a ≤ 1 := by
  obtain ⟨hpos, hone⟩ := cast_toRat_mem a
  exact ⟨(Real.rpow_pos_of_pos hpos _).le,
    Real.rpow_le_one hpos.le hone (Rat.cast_nonneg.mpr hy)⟩

/-- An exponent up to one lowers no alpha. -/
theorem le_powerOf {y : F64} (hy : y.toRat ≤ 1) (a : Alpha F64) : (a.toRat : ℝ) ≤ powerOf y a := by
  obtain ⟨hpos, hone⟩ := cast_toRat_mem a
  exact Real.self_le_rpow_of_le_one hpos.le hone (by exact_mod_cast hy)

theorem powf_eq_rounded {powf : F64 → F64 → F64} (hpowf : F64.CorrectlyRounded powf) {y : F64}
    (hfinite : y.isFinite) (hy : 0 ≤ y.toRat) (a : Alpha F64) :
    powf a.value y = rounded (powerOf y) a := by
  obtain ⟨h0, h1⟩ := powerOf_mem hy a
  exact (hpowf a.value y a.finite hfinite a.toRat_pos).trans (F64.ofReal_of_le_one h0 h1)

end Fuzzyregion

namespace PowerTransform

open Fuzzyregion

variable {G : Type} {v r : Fuzzyregion F64 G} {powf : F64 → F64 → F64} {power : F64}

/-- The rounded reciprocal of an accepted power is in the unit interval. -/
theorem reciprocal_mem (h : validateMembershipPower power = .ok ()) :
    (dilate.exponent power).isFinite ∧ 0 ≤ (dilate.exponent power).toRat ∧
      (dilate.exponent power).toRat ≤ 1 := by
  obtain ⟨hfinite, hlt⟩ := validateMembershipPower_eq_ok_iff.mp h
  have hpos : 0 < power.toRat := one_pos.trans hlt
  have hdiv : dilate.exponent power = F64.ofRat false (1 / power.toRat) := by
    have hone : F64.one.isFinite := by decide
    rw [← F64.toRat_one]
    exact F64.div_eq hone hfinite (F64.toRat_one ▸ one_pos) hpos
  rw [hdiv]
  exact F64.toRat_ofRat_mem (one_div_nonneg.mpr hpos.le) ((div_le_one hpos).mpr hlt.le)

theorem exponent_nonneg (t : PowerTransform) (h : validateMembershipPower power = .ok ()) :
    (t.exponent power).isFinite ∧ 0 ≤ (t.exponent power).toRat := by
  cases t with
  | concentrate =>
    obtain ⟨hfinite, hlt⟩ := validateMembershipPower_eq_ok_iff.mp h
    exact ⟨hfinite, (one_pos.trans hlt).le⟩
  | dilate => exact ⟨(reciprocal_mem h).1, (reciprocal_mem h).2.1⟩

/-- A power transform with an accepted power is a rounded remap. -/
theorem run_of_valid (t : PowerTransform) (h : validateMembershipPower power = .ok ()) :
    t.run powf v power =
      v.remapMembershipValues fun alpha => powf alpha.value (t.exponent power) := by
  rw [run_eq, h]
  rfl

theorem inUnit_powerOf (t : PowerTransform) (h : validateMembershipPower power = .ok ()) :
    InUnit (powerOf (t.exponent power)) v := fun l _ =>
  powerOf_mem (t.exponent_nonneg h).2 l.alpha

/-- A power transform returns exactly when no exact power rounds to zero. -/
theorem exists_run_iff (t : PowerTransform) (hpowf : F64.CorrectlyRounded powf)
    (h : validateMembershipPower power = .ok ()) :
    (∃ r, t.run powf v power = .ok r) ↔
      ∀ l ∈ v.levels, 1 / 2 ^ 1075 < powerOf (t.exponent power) l.alpha := by
  obtain ⟨hfinite, hy⟩ := t.exponent_nonneg h
  rw [t.run_of_valid h]
  exact exists_remapMembershipValues_iff_lt _ (t.inUnit_powerOf h) fun l _ =>
    powf_eq_rounded hpowf hfinite hy l.alpha

/-- Otherwise the remap panics. -/
theorem run_eq_panic (t : PowerTransform) (hpowf : F64.CorrectlyRounded powf)
    (h : validateMembershipPower power = .ok ())
    (hlow : ¬ ∀ l ∈ v.levels, 1 / 2 ^ 1075 < powerOf (t.exponent power) l.alpha) :
    t.run powf v power =
      .error (.panic "membership remapping must preserve alpha validity") := by
  have hnot := (t.exists_run_iff hpowf h (v := v)).not.mpr hlow
  rw [t.run_of_valid h] at hnot ⊢
  exact remapMembershipValues_eq_panic (exists_remapMembershipValues_iff.not.mp hnot)

/-- The result of a power transform that returns. -/
theorem image_of_run (t : PowerTransform) (hpowf : F64.CorrectlyRounded powf)
    (hrun : t.run powf v power = .ok r) :
    validateMembershipPower power = .ok () ∧ Image (powerOf (t.exponent power)) v r := by
  have hvalid : validateMembershipPower power = .ok () := by
    rw [run_eq, check_bind_eq_ok_iff, mapError_eq_ok_iff] at hrun
    exact hrun.1
  obtain ⟨hfinite, hy⟩ := t.exponent_nonneg hvalid
  rw [t.run_of_valid hvalid] at hrun
  exact ⟨hvalid, image_of_remapMembershipValues
    (fun l _ => powf_eq_rounded hpowf hfinite hy l.alpha) hrun⟩

end PowerTransform

namespace Fuzzyregion

variable {G : Type} {powf : F64 → F64 → F64} {power : F64}

/-- **When the power transforms return**: dilation does for every accepted power, concentration
exactly when the power of every alpha is above half the least subnormal. Otherwise the checked
constructor of an alpha meets a zero, and the call panics. -/
theorem concentrate_dilate_return_iff (hpowf : F64.CorrectlyRounded powf)
    (h : validateMembershipPower power = .ok ()) (v : Fuzzyregion F64 G) :
    (((∃ r, v.concentrateMembership powf power = .ok r) ∧
        ∃ r, v.dilateMembership powf power = .ok r) ↔
      ∀ l ∈ v.levels, 1 / 2 ^ 1075 < (l.alpha.toRat : ℝ) ^ (power.toRat : ℝ)) ∧
    (∃ r, v.dilateMembership powf power = .ok r) ∧
    ((¬ ∀ l ∈ v.levels, 1 / 2 ^ 1075 < (l.alpha.toRat : ℝ) ^ (power.toRat : ℝ)) →
      v.concentrateMembership powf power =
        .error (.panic "membership remapping must preserve alpha validity")) := by
  have hdilate : ∃ r, v.dilateMembership powf power = .ok r := by
    refine (PowerTransform.dilate.exists_run_iff hpowf h).mpr fun l _ => ?_
    -- the reciprocal is at most one, so the alpha is not lowered
    calc 1 / 2 ^ 1075 < (l.alpha.toRat : ℝ) := l.alpha.lt_toRat
      _ ≤ powerOf (PowerTransform.dilate.exponent power) l.alpha :=
        le_powerOf (PowerTransform.reciprocal_mem h).2.2 l.alpha
  have hconcentrate := PowerTransform.concentrate.exists_run_iff hpowf h (v := v)
  exact ⟨(and_iff_left hdilate).trans hconcentrate, hdilate,
    PowerTransform.concentrate.run_eq_panic hpowf h⟩

/-- One cell at the membership one half. -/
def shade : Fuzzyregion F64 MockGeometry where
  srid := some 4326
  levels := [⟨binaryAlpha 0x3FE0000000000000 (by decide), ⟨4326, {1}⟩⟩]

theorem canonicalize_shade :
    canonicalize ⟨shade.levels⟩ (mockEngine.engine Empty) = .ok shade := by
  decide +kernel

/-- The powers of the alpha of `shade`. -/
theorem powerOf_shade {y : F64} {n : ℕ} (hy : y.toRat = n) {l : Level F64 MockGeometry}
    (hl : l ∈ shade.levels) : (l.alpha.toRat : ℝ) ^ (y.toRat : ℝ) = 1 / 2 ^ n := by
  obtain rfl := List.mem_singleton.mp hl
  have hhalf : (binaryAlpha 0x3FE0000000000000 (by decide)).toRat = 1 / 2 := by decide +kernel
  rw [hhalf, hy, Rat.cast_natCast, Real.rpow_natCast, Rat.cast_div, Rat.cast_one, Rat.cast_ofNat,
    div_pow, one_pow]

/-- Its square is an alpha. -/
theorem concentrate_dilate_return_iff_shade :
    (∃ r, shade.concentrateMembership F64.exactPower ⟨0x4000000000000000⟩ = .ok r) ∧
      ∃ r, shade.dilateMembership F64.exactPower ⟨0x4000000000000000⟩ = .ok r := by
  have htwo : (F64.mk 0x4000000000000000).toRat = (2 : ℕ) := by decide +kernel
  refine (concentrate_dilate_return_iff F64.correctlyRounded_exactPower (by decide) shade).1.mpr
    fun l hl => ?_
  rw [powerOf_shade htwo hl]
  exact one_div_lt_one_div_of_lt (by norm_num) (pow_lt_pow_right₀ one_lt_two (by norm_num))

/-- Its power of `2048` is too small for an alpha, and the concentration panics. -/
theorem concentrate_shade_panics :
    validateMembershipPower (F64.mk 0x40A0000000000000) = .ok () ∧
    Canonical (mockEngine.engine Empty) shade ∧
    shade.concentrateMembership F64.exactPower ⟨0x40A0000000000000⟩ =
      .error (.panic "membership remapping must preserve alpha validity") := by
  have hpower : (F64.mk 0x40A0000000000000).toRat = (2048 : ℕ) := by decide +kernel
  refine ⟨by decide, canonicalize_canonical canonicalize_shade, ?_⟩
  apply PowerTransform.concentrate.run_eq_panic F64.correctlyRounded_exactPower (by decide)
  intro h
  have hlt : 1 / 2 ^ 1075 < powerOf ⟨0x40A0000000000000⟩ _ := h _ List.mem_cons_self
  rw [powerOf, powerOf_shade hpower List.mem_cons_self] at hlt
  exact hlt.not_ge (one_div_le_one_div_of_le (pow_pos two_pos _)
    (pow_le_pow_right₀ one_le_two (by norm_num)))

end Fuzzyregion

end FuzzyRegion
