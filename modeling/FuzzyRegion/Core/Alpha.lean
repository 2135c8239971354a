import FuzzyRegion.Core.Scalar

/-!
# Alpha values

A level alpha is a finite scalar in `(0, 1]` and a query threshold is one in `[0, 1]`. Both types
carry their range, so the rest of the model never meets an invalid alpha. On level alphas the
total order used for sorting, the equality used for duplicates and the comparisons used by cuts
are one linear order.

## Main definitions

* `Alpha`, `AlphaThreshold` and their checked constructors `tryFrom`
* `Alpha.cmp`, `Alpha.eq`, `AlphaThreshold.cmp`, `AlphaThreshold.eq`: the order and the equality of
  the source

## Main results

* the linear order on alphas, with `Alpha.cmp_eq`, `Alpha.eq_iff`
* `AlphaThreshold.tryFrom_complement`, `AlphaThreshold.complement_anti`: the complement of an alpha
  is a threshold, and falls as the alpha grows
-/

namespace FuzzyRegion

section

variable {F : Type} [Scalar F]

/-- Errors returned when constructing validated alpha values. -/
inductive AlphaError (F : Type) where
  /-- The supplied value was not finite. -/
  | notFinite (value : F)
  /-- A stored level alpha was outside `(0, 1]`. -/
  | levelOutOfRange (value : F)
  /-- A query threshold was outside `[0, 1]`. -/
  | thresholdOutOfRange (value : F)
deriving DecidableEq

/-- A validated membership level, in `(0, 1]`. -/
structure Alpha (F : Type) [Scalar F] where
  value : F
  finite : Scalar.isFinite value = true
  aboveZero : Scalar.le value Scalar.zero = false
  atMostOne : Scalar.lt Scalar.one value = false
deriving DecidableEq

/-- A validated threshold for crisp projections, in `[0, 1]`. -/
structure AlphaThreshold (F : Type) [Scalar F] where
  value : F
  finite : Scalar.isFinite value = true
  contained : (Scalar.le Scalar.zero value && Scalar.le value Scalar.one) = true
deriving DecidableEq

namespace Alpha

/-- `TryFrom<f64> for Alpha`. -/
def tryFrom (value : F) : Except (AlphaError F) (Alpha F) :=
  if hf : Scalar.isFinite value = true then
    if hr : Scalar.le value Scalar.zero = false ∧ Scalar.lt Scalar.one value = false then
      .ok ⟨value, hf, hr.1, hr.2⟩
    else .error (.levelOutOfRange value)
  else .error (.notFinite value)

def isOne (a : Alpha F) : Bool := Scalar.eq a.value Scalar.one

/-- `Ord for Alpha`. -/
def cmp (a b : Alpha F) : Ordering := Scalar.totalCmp a.value b.value

/-- `PartialEq for Alpha`. -/
def eq (a b : Alpha F) : Bool := Scalar.eq a.value b.value

theorem tryFrom_value (a : Alpha F) : tryFrom a.value = .ok a := by
  rw [tryFrom, dif_pos a.finite, dif_pos ⟨a.aboveZero, a.atMostOne⟩]

/-- An alpha is its value. -/
theorem ext_value {a b : Alpha F} (h : a.value = b.value) : a = b := by
  cases a
  cases b
  congr

theorem value_of_tryFrom {x : F} {a : Alpha F} (h : tryFrom x = .ok a) : a.value = x := by
  unfold tryFrom at h
  split_ifs at h
  cases h
  rfl

end Alpha

namespace AlphaThreshold

/-- `TryFrom<f64> for AlphaThreshold`. -/
def tryFrom (value : F) : Except (AlphaError F) (AlphaThreshold F) :=
  if hf : Scalar.isFinite value = true then
    if hr : (Scalar.le Scalar.zero value && Scalar.le value Scalar.one) = true then
      .ok ⟨value, hf, hr⟩
    else .error (.thresholdOutOfRange value)
  else .error (.notFinite value)

def isZero (t : AlphaThreshold F) : Bool := Scalar.eq t.value Scalar.zero

/-- `Ord for AlphaThreshold`. -/
def cmp (s t : AlphaThreshold F) : Ordering := Scalar.totalCmp s.value t.value

/-- `PartialEq for AlphaThreshold`. -/
def eq (s t : AlphaThreshold F) : Bool := Scalar.eq s.value t.value

theorem value_of_tryFrom {x : F} {t : AlphaThreshold F} (h : tryFrom x = .ok t) : t.value = x := by
  unfold tryFrom at h
  split_ifs at h
  cases h
  rfl

end AlphaThreshold

end

/-! ## The order of alphas -/

section

variable {F : Type} [LawfulScalar F]

namespace Alpha

/-- Full membership. -/
def one : Alpha F where
  value := Scalar.one
  finite := LawfulScalar.isFinite_one
  aboveZero := by
    rw [Bool.eq_false_iff, ne_eq, LawfulScalar.le_iff LawfulScalar.isFinite_one
      LawfulScalar.isFinite_zero, LawfulScalar.toRat_one, LawfulScalar.toRat_zero, not_le]
    exact one_pos
  atMostOne := by
    rw [Bool.eq_false_iff, ne_eq, LawfulScalar.lt_iff LawfulScalar.isFinite_one
      LawfulScalar.isFinite_one]
    exact lt_irrefl _

/-- The value of an alpha. -/
def toRat (a : Alpha F) : ℚ := LawfulScalar.toRat a.value

theorem toRat_pos (a : Alpha F) : 0 < a.toRat := by
  have h := (LawfulScalar.le_iff a.finite LawfulScalar.isFinite_zero).not.mp
    (Bool.eq_false_iff.mp a.aboveZero)
  rwa [LawfulScalar.toRat_zero, not_le] at h

theorem toRat_le_one (a : Alpha F) : a.toRat ≤ 1 := by
  have h := (LawfulScalar.lt_iff LawfulScalar.isFinite_one a.finite).not.mp
    (Bool.eq_false_iff.mp a.atMostOne)
  rwa [LawfulScalar.toRat_one, not_lt] at h

/-- What is wrong with a number that is no alpha. -/
theorem tryFrom_eq_error_iff {x : F} {error : AlphaError F} :
    Alpha.tryFrom x = .error error ↔
      (Scalar.isFinite x = false ∧ error = .notFinite x) ∨
      Scalar.isFinite x = true ∧ ¬ (0 < LawfulScalar.toRat x ∧ LawfulScalar.toRat x ≤ 1) ∧
        error = .levelOutOfRange x := by
  by_cases hf : Scalar.isFinite x = true
  · have hrange : (Scalar.le x Scalar.zero = false ∧ Scalar.lt Scalar.one x = false) ↔
        0 < LawfulScalar.toRat x ∧ LawfulScalar.toRat x ≤ 1 := by
      rw [← Bool.not_eq_true, ← Bool.not_eq_true, LawfulScalar.le_iff hf LawfulScalar.isFinite_zero,
        LawfulScalar.lt_iff LawfulScalar.isFinite_one hf, LawfulScalar.toRat_zero,
        LawfulScalar.toRat_one, not_le, not_lt]
    rw [tryFrom, dif_pos hf, ← hrange]
    constructor
    · intro h
      split_ifs at h with hr
      exact Or.inr ⟨hf, hr, (Except.error.inj h).symm⟩
    · rintro (⟨hnot, -⟩ | ⟨-, hr, rfl⟩)
      · exact absurd (hf.symm.trans hnot) Bool.noConfusion
      · rw [dif_neg hr]
  · rw [tryFrom, dif_neg hf]
    constructor
    · intro h
      exact Or.inl ⟨Bool.eq_false_iff.mpr hf, (Except.error.inj h).symm⟩
    · rintro (⟨-, rfl⟩ | ⟨hfinite, -⟩)
      · rfl
      · exact absurd hfinite hf

/-- Every finite value in `(0, 1]` is that of an alpha. -/
theorem exists_value_eq {x : F} (hf : Scalar.isFinite x = true) (h0 : 0 < LawfulScalar.toRat x)
    (h1 : LawfulScalar.toRat x ≤ 1) : ∃ a : Alpha F, a.value = x := by
  refine ⟨⟨x, hf, ?_, ?_⟩, rfl⟩
  · rw [Bool.eq_false_iff, ne_eq, LawfulScalar.le_iff hf LawfulScalar.isFinite_zero,
      LawfulScalar.toRat_zero, not_le]
    exact h0
  · rw [Bool.eq_false_iff, ne_eq, LawfulScalar.lt_iff LawfulScalar.isFinite_one hf,
      LawfulScalar.toRat_one, not_lt]
    exact h1

theorem toRat_injective : Function.Injective (toRat : Alpha F → ℚ) := by
  intro a b h
  exact ext_value (LawfulScalar.toRat_inj a.toRat_pos h)

instance : LinearOrder (Alpha F) := LinearOrder.lift' toRat toRat_injective

theorem le_def {a b : Alpha F} : a ≤ b ↔ a.toRat ≤ b.toRat := Iff.rfl

theorem lt_def {a b : Alpha F} : a < b ↔ a.toRat < b.toRat := Iff.rfl

/-- The order used for sorting is the order of the values. -/
theorem cmp_eq (a b : Alpha F) : cmp a b = compare a.toRat b.toRat :=
  LawfulScalar.totalCmp_eq a.toRat_pos b.toRat_pos

theorem isLE_cmp {a b : Alpha F} : (cmp a b).isLE = true ↔ a ≤ b := by
  rw [cmp_eq, le_def, ← compare_le_iff_le]
  exact Ordering.ne_gt_iff_isLE.symm

/-- The equality used for duplicates is equality. -/
theorem eq_iff {a b : Alpha F} : eq a b = true ↔ a = b :=
  (LawfulScalar.eq_iff a.finite b.finite).trans toRat_injective.eq_iff

theorem toRat_one : (one : Alpha F).toRat = 1 := LawfulScalar.toRat_one

/-- No alpha exceeds one, so one is the only alpha that reaches it. -/
theorem isOne_iff {a : Alpha F} : a.isOne = true ↔ 1 ≤ a.toRat := by
  change eq a one = true ↔ _
  rw [eq_iff, ← toRat_injective.eq_iff, toRat_one, a.toRat_le_one.ge_iff_eq]

end Alpha

namespace AlphaThreshold

/-- The value of a threshold. -/
def toRat (t : AlphaThreshold F) : ℚ := LawfulScalar.toRat t.value

theorem toRat_nonneg (t : AlphaThreshold F) : 0 ≤ t.toRat := by
  have h := (Bool.and_eq_true_iff.mp t.contained).1
  rwa [LawfulScalar.le_iff LawfulScalar.isFinite_zero t.finite, LawfulScalar.toRat_zero] at h

theorem toRat_le_one (t : AlphaThreshold F) : t.toRat ≤ 1 := by
  have h := (Bool.and_eq_true_iff.mp t.contained).2
  rwa [LawfulScalar.le_iff t.finite LawfulScalar.isFinite_one, LawfulScalar.toRat_one] at h

theorem eq_iff {s t : AlphaThreshold F} : eq s t = true ↔ s.toRat = t.toRat :=
  LawfulScalar.eq_iff s.finite t.finite

theorem isZero_iff {t : AlphaThreshold F} : t.isZero = true ↔ t.toRat = 0 := by
  rw [isZero, LawfulScalar.eq_iff t.finite LawfulScalar.isFinite_zero, LawfulScalar.toRat_zero]
  rfl

theorem le_value_iff {t : AlphaThreshold F} {a : Alpha F} :
    Scalar.le t.value a.value = true ↔ t.toRat ≤ a.toRat :=
  LawfulScalar.le_iff t.finite a.finite

theorem lt_value_iff {t : AlphaThreshold F} {a : Alpha F} :
    Scalar.lt t.value a.value = true ↔ t.toRat < a.toRat :=
  LawfulScalar.lt_iff t.finite a.finite

theorem tryFrom_value (t : AlphaThreshold F) : tryFrom t.value = .ok t := by
  rw [tryFrom, dif_pos t.finite, dif_pos t.contained]

theorem contained_of_toRat {x : F} (hf : Scalar.isFinite x = true) (h0 : 0 ≤ LawfulScalar.toRat x)
    (h1 : LawfulScalar.toRat x ≤ 1) :
    (Scalar.le Scalar.zero x && Scalar.le x Scalar.one) = true := by
  rw [Bool.and_eq_true_iff, LawfulScalar.le_iff LawfulScalar.isFinite_zero hf,
    LawfulScalar.le_iff hf LawfulScalar.isFinite_one, LawfulScalar.toRat_zero,
    LawfulScalar.toRat_one]
  exact ⟨h0, h1⟩

/-- `From<Alpha> for AlphaThreshold`. -/
def ofAlpha (a : Alpha F) : AlphaThreshold F where
  value := a.value
  finite := a.finite
  contained := contained_of_toRat a.finite a.toRat_pos.le a.toRat_le_one

@[simp] theorem toRat_ofAlpha (a : Alpha F) : (ofAlpha a).toRat = a.toRat := rfl

/-- The complement of an alpha, which is a threshold. -/
def complement (a : Alpha F) : AlphaThreshold F :=
  have h := LawfulScalar.complement_mem a.finite a.toRat_pos a.toRat_le_one
  ⟨Scalar.sub Scalar.one a.value, h.1, contained_of_toRat h.1 h.2.1 h.2.2⟩

/-- The complement of an alpha always passes the range check of a threshold. -/
theorem tryFrom_complement (a : Alpha F) :
    tryFrom (Scalar.sub Scalar.one a.value) = .ok (complement a) := tryFrom_value (complement a)

theorem complement_anti {a b : Alpha F} (h : a ≤ b) : (complement b).toRat ≤ (complement a).toRat :=
  LawfulScalar.complement_anti a.finite b.finite a.toRat_pos b.toRat_le_one h

end AlphaThreshold

end

end FuzzyRegion
