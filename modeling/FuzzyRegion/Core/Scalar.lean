import FuzzyRegion.Numeric.Binary64

/-!
# The arithmetic of alphas

The source computes with alphas in `f64`. It compares them, subtracts one from `1.0` and divides
one by another, and nothing else. The domain model is generic in these operations, so that it runs
on binary64 data as the source does and on exact rationals where a statement is about exact
arithmetic.

## Main definitions

* `Scalar F`: the operations of `f64` that the source applies to alphas
* `LawfulScalar F`: a scalar whose comparisons are those of rational values, and whose complement
  keeps the unit interval and reverses the order

## Main results

* the instances for `ℚ` (exact) and `F64` (binary64, rounded to nearest-even)
-/

namespace FuzzyRegion

open Numeric

/-- The operations of `f64` applied to alphas. -/
class Scalar (F : Type) where
  isFinite : F → Bool
  zero : F
  one : F
  /-- `<=` -/
  le : F → F → Bool
  /-- `<` -/
  lt : F → F → Bool
  /-- `==` -/
  eq : F → F → Bool
  totalCmp : F → F → Ordering
  sub : F → F → F
  div : F → F → F

/-- A scalar read as a rational number. The finite scalars compare as their values, positive
values have one representation, and `1 - x` stays in the unit interval and reverses the order. -/
class LawfulScalar (F : Type) extends Scalar F where
  toRat : F → ℚ
  isFinite_zero : isFinite zero = true
  isFinite_one : isFinite one = true
  toRat_zero : toRat zero = 0
  toRat_one : toRat one = 1
  le_iff : ∀ {x y}, isFinite x = true → isFinite y = true → (le x y = true ↔ toRat x ≤ toRat y)
  lt_iff : ∀ {x y}, isFinite x = true → isFinite y = true → (lt x y = true ↔ toRat x < toRat y)
  eq_iff : ∀ {x y}, isFinite x = true → isFinite y = true → (eq x y = true ↔ toRat x = toRat y)
  totalCmp_eq : ∀ {x y}, 0 < toRat x → 0 < toRat y → totalCmp x y = compare (toRat x) (toRat y)
  toRat_inj : ∀ {x y}, 0 < toRat x → toRat x = toRat y → x = y
  complement_mem : ∀ {x}, isFinite x = true → 0 < toRat x → toRat x ≤ 1 →
    isFinite (sub one x) = true ∧ 0 ≤ toRat (sub one x) ∧ toRat (sub one x) ≤ 1
  complement_anti : ∀ {x y}, isFinite x = true → isFinite y = true → 0 < toRat x → toRat y ≤ 1 →
    toRat x ≤ toRat y → toRat (sub one y) ≤ toRat (sub one x)

/-- Exact arithmetic: every scalar is finite, and operations are not rounded. -/
instance : LawfulScalar ℚ where
  isFinite _ := true
  zero := 0
  one := 1
  le x y := decide (x ≤ y)
  lt x y := decide (x < y)
  eq x y := decide (x = y)
  totalCmp x y := compare x y
  sub x y := x - y
  div x y := x / y
  toRat := id
  isFinite_zero := rfl
  isFinite_one := rfl
  toRat_zero := rfl
  toRat_one := rfl
  le_iff _ _ := decide_eq_true_iff
  lt_iff _ _ := decide_eq_true_iff
  eq_iff _ _ := decide_eq_true_iff
  totalCmp_eq _ _ := rfl
  toRat_inj _ h := h
  complement_mem _ hpos hle := ⟨rfl, sub_nonneg.mpr hle, sub_le_self 1 (le_of_lt hpos)⟩
  complement_anti _ _ _ _ h := sub_le_sub_left h 1

/-- Binary64 arithmetic, as the source runs. -/
instance : LawfulScalar F64 where
  isFinite := F64.isFinite
  zero := F64.zero
  one := F64.one
  le := F64.le
  lt := F64.lt
  eq := F64.eq
  totalCmp := F64.totalCmp
  sub := F64.sub
  div := F64.div
  toRat := F64.toRat
  isFinite_zero := by decide
  isFinite_one := by decide
  toRat_zero := F64.toRat_zero
  toRat_one := F64.toRat_one
  le_iff := F64.le_iff_toRat
  lt_iff := F64.lt_iff_toRat
  eq_iff := F64.eq_iff_toRat
  totalCmp_eq hx hy :=
    F64.totalCmp_eq_compare (F64.isSignNegative_of_toRat_pos hx)
      (F64.isSignNegative_of_toRat_pos hy)
  toRat_inj := F64.eq_of_toRat_eq
  complement_mem hfin hpos hle := by
    rw [F64.sub_one_eq hfin]
    exact F64.toRat_ofRat_mem (sub_nonneg.mpr hle) (sub_le_self 1 hpos.le)
  complement_anti hx hy hpos hle h := by
    rw [F64.sub_one_eq hx, F64.sub_one_eq hy]
    exact F64.toRat_ofRat_mono (sub_nonneg.mpr hle) (sub_le_sub_left h 1) (sub_le_self 1 hpos.le)

end FuzzyRegion
