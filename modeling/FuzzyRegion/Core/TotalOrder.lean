import FuzzyRegion.Core.Mock

/-!
# Order and equality

The source sorts alphas by `total_cmp`, removes repeated ones by `==` and selects levels by numeric
comparisons, which is sound where the three agree. They do on alphas, whose range excludes both
zeros. The range of a threshold is checked numerically, so it admits `-0.0`, which is equal to `0.0`
and ordered before it. Cuts compare numerically and do not tell the two zeros apart, and no
threshold that the source derives from an alpha is `-0.0`.

## Main results

* `Alpha.agrees`, `AlphaThreshold.agrees_iff`: where the order agrees with the comparisons
* `cmp_agrees_iff`: the same for accepted values, from their bits
* `alphaCut_congr`: equal thresholds cut equally
* `AlphaThreshold.agrees_complement`: the order agrees on complements of alphas
-/

namespace FuzzyRegion

open Numeric

/-- On alphas the order of the source agrees with the comparisons of the values. -/
theorem Alpha.agrees {F : Type} [LawfulScalar F] (a b : Alpha F) :
    Agrees (a.cmp b) (a.eq b) (Scalar.lt a.value b.value) := by
  rw [Agrees, Alpha.cmp_eq, compare_eq_iff_eq, compare_lt_iff_lt]
  constructor
  · exact (LawfulScalar.eq_iff a.finite b.finite).symm
  · exact (LawfulScalar.lt_iff a.finite b.finite).symm

namespace AlphaThreshold

/-- On thresholds it does unless they are the two zeros. -/
theorem agrees_iff (s t : AlphaThreshold F64) :
    Agrees (s.cmp t) (s.eq t) (F64.lt s.value t.value) ↔
      ¬ F64.OppositeZeros s.value t.value :=
  F64.agrees_totalCmp_iff (F64.not_isNan_of_isFinite s.finite)
    (F64.not_isNan_of_isFinite t.finite)

theorem agrees_of_isSignNegative {s t : AlphaThreshold F64}
    (hs : s.value.isSignNegative = false) (ht : t.value.isSignNegative = false) :
    Agrees (s.cmp t) (s.eq t) (F64.lt s.value t.value) := by
  rw [agrees_iff]
  rintro (⟨-, h⟩ | ⟨h, -⟩)
  · rw [(F64.eq_negZero_iff.mp h).1] at ht
    cases ht
  · rw [(F64.eq_negZero_iff.mp h).1] at hs
    cases hs

theorem isSignNegative_complement (a : Alpha F64) :
    (complement a).value.isSignNegative = false := by
  have hsub : (complement a).value = F64.ofRat false (1 - a.toRat) := F64.sub_one_eq a.finite
  rw [hsub]
  exact F64.isSignNegative_ofRat (sub_nonneg.mpr a.toRat_le_one) (sub_le_self 1 a.toRat_pos.le)

/-- The order agrees with the comparisons on the exclusion thresholds of the difference. -/
theorem agrees_complement (a b : Alpha F64) :
    Agrees ((complement a).cmp (complement b)) ((complement a).eq (complement b))
      (F64.lt (complement a).value (complement b).value) :=
  agrees_of_isSignNegative (isSignNegative_complement a) (isSignNegative_complement b)

end AlphaThreshold

/-- **The order agrees with the equality and with the numeric order** on any two accepted alphas,
and on two accepted thresholds exactly when they are not the two zeros. -/
theorem cmp_agrees_iff (x y : F64) :
    (∀ a b, Alpha.tryFrom x = .ok a → Alpha.tryFrom y = .ok b →
      Agrees (a.cmp b) (a.eq b) (F64.lt a.value b.value)) ∧
    ∀ s t, AlphaThreshold.tryFrom x = .ok s → AlphaThreshold.tryFrom y = .ok t →
      (Agrees (s.cmp t) (s.eq t) (F64.lt s.value t.value) ↔ ¬ F64.OppositeZeros x y) := by
  refine ⟨fun a b _ _ => a.agrees b, fun s t hs ht => ?_⟩
  rw [AlphaThreshold.agrees_iff, AlphaThreshold.value_of_tryFrom hs,
    AlphaThreshold.value_of_tryFrom ht]

/-- The threshold `0.0`. -/
def zeroThreshold : AlphaThreshold F64 := ⟨F64.zero, by decide, by decide⟩

/-- The threshold `-0.0`. -/
def negZeroThreshold : AlphaThreshold F64 := ⟨F64.negZero, by decide, by decide⟩

/-- The greatest subnormal alpha. -/
def subnormal : Alpha F64 := binaryAlpha 0x000FFFFFFFFFFFFF (by decide)

theorem cmp_agrees_iff_subnormal :
    Agrees (subnormal.cmp .one) (subnormal.eq .one) (F64.lt subnormal.value F64.one) ∧
    Agrees (zeroThreshold.cmp (.ofAlpha subnormal)) (zeroThreshold.eq (.ofAlpha subnormal))
      (F64.lt F64.zero subnormal.value) := by
  have hone : Alpha.tryFrom F64.one = .ok Alpha.one := Alpha.tryFrom_value Alpha.one
  have hsubnormal : AlphaThreshold.tryFrom subnormal.value = .ok (.ofAlpha subnormal) :=
    AlphaThreshold.tryFrom_value (.ofAlpha subnormal)
  constructor
  · exact (cmp_agrees_iff subnormal.value F64.one).1 subnormal .one
      (Alpha.tryFrom_value subnormal) hone
  · exact ((cmp_agrees_iff F64.zero subnormal.value).2 zeroThreshold (.ofAlpha subnormal)
      (AlphaThreshold.tryFrom_value zeroThreshold) hsubnormal).mpr (by decide)

/-- The threshold `-0.0` is accepted, equal to `0.0` and ordered before it. -/
theorem negZero_disagrees :
    AlphaThreshold.tryFrom F64.negZero = .ok negZeroThreshold ∧
    AlphaThreshold.tryFrom F64.zero = .ok zeroThreshold ∧
    negZeroThreshold.cmp zeroThreshold = .lt ∧ negZeroThreshold.eq zeroThreshold = true ∧
    ¬ Agrees (negZeroThreshold.cmp zeroThreshold) (negZeroThreshold.eq zeroThreshold)
      (F64.lt negZeroThreshold.value zeroThreshold.value) := by
  decide

/-- Equal thresholds cut equally, so that a cut does not tell the two zeros apart. -/
theorem Fuzzyregion.alphaCut_congr {F G : Type} [LawfulScalar F] {s t : AlphaThreshold F}
    (h : s.eq t = true) (v : Fuzzyregion F G) :
    v.alphaCut s = v.alphaCut t ∧ v.strictAlphaCut s = v.strictAlphaCut t := by
  have hvalue := AlphaThreshold.eq_iff.mp h
  rw [alphaCut_eq, alphaCut_eq, strictAlphaCut_eq, strictAlphaCut_eq, hvalue]
  exact ⟨rfl, rfl⟩

end FuzzyRegion
