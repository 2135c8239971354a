import Mathlib.Algebra.Order.Field.Basic
import Mathlib.Algebra.Group.Nat.Even
import Mathlib.Order.Monotone.Basic
import Mathlib.Tactic.Linarith

/-!
# Rounding to nearest on an indexed grid

A number format whose nonnegative values are enumerated in increasing order is a strictly
increasing sequence of grid points. Rounding to nearest picks the index of the closer of the two
points around a value, and the even index on a tie. Every fact about rounding used downstream is
order-theoretic and follows from the enumeration alone.

## Main definitions

* `Grid`: an increasing sequence of points with the index of the last point below a value
* `Grid.round`: round to nearest, ties to the even index
* `Grid.midpoint`, `Grid.BelowMiddle`, `Grid.Separated`: where the values round to the next point

## Main results

* `Grid.round_point`: a grid point rounds to its own index
* `Grid.round_mono`: rounding is monotone
* `Grid.round_le_of_le_point`: rounding does not cross a grid point
* `Grid.round_le_iff`, `Grid.round_lt_round_iff`: rounding compared through the middles
-/

namespace Numeric

/-- An increasing enumeration of points, with the index of the last point at or below a value. -/
structure Grid (K : Type*) [LinearOrder K] where
  /-- The points, in increasing order. -/
  point : ℕ → K
  strictMono : StrictMono point
  /-- The index of the last point at or below a value. -/
  index : K → ℕ
  point_index_le : ∀ {q}, point 0 ≤ q → point (index q) ≤ q
  lt_point_succ : ∀ {q}, point 0 ≤ q → q < point (index q + 1)

namespace Grid

variable {K : Type*} [LinearOrder K] (g : Grid K)

/-- The index is the lower adjoint of the enumeration. -/
theorem le_index_iff {q : K} (hq : g.point 0 ≤ q) {n : ℕ} : n ≤ g.index q ↔ g.point n ≤ q := by
  constructor
  · intro h
    exact (g.strictMono.monotone h).trans (g.point_index_le hq)
  · intro h
    have hlt : g.point n < g.point (g.index q + 1) := h.trans_lt (g.lt_point_succ hq)
    exact Nat.lt_succ_iff.mp (g.strictMono.lt_iff_lt.mp hlt)

theorem index_point (n : ℕ) : g.index (g.point n) = n := by
  have h0 : g.point 0 ≤ g.point n := g.strictMono.monotone (Nat.zero_le n)
  refine le_antisymm ?_ ((g.le_index_iff h0).mpr le_rfl)
  exact g.strictMono.le_iff_le.mp (g.point_index_le h0)

variable [Field K]

/-- A value stays at the lower of its two neighbours: it is nearer, or equally near and even. -/
def StaysDown (q : K) : Prop :=
  q - g.point (g.index q) < g.point (g.index q + 1) - q ∨
    q - g.point (g.index q) = g.point (g.index q + 1) - q ∧ Even (g.index q)

instance (q : K) : Decidable (g.StaysDown q) := inferInstanceAs (Decidable (_ ∨ _))

/-- Round to nearest, ties to the even index. -/
def round (q : K) : ℕ := if g.StaysDown q then g.index q else g.index q + 1

theorem index_le_round (q : K) : g.index q ≤ g.round q := by
  unfold round
  split_ifs
  · exact le_rfl
  · exact Nat.le_succ _

theorem round_le_index_succ (q : K) : g.round q ≤ g.index q + 1 := by
  unfold round
  split_ifs
  · exact Nat.le_succ _
  · exact le_rfl

/-- The middle between a point and the next one. -/
def midpoint (n : ℕ) : K := (g.point n + g.point (n + 1)) / 2

/-- A value is below the middle after a point, or is that middle and the point is even. -/
def BelowMiddle (q : K) (n : ℕ) : Prop := q < g.midpoint n ∨ q = g.midpoint n ∧ Even n

/-- A middle separates two values. -/
def Separated (q r : K) : Prop := ∃ n, g.BelowMiddle q n ∧ ¬ g.BelowMiddle r n

theorem BelowMiddle.mono {g : Grid K} {q r : K} {n : ℕ} (hqr : q ≤ r) (h : g.BelowMiddle r n) :
    g.BelowMiddle q n := by
  rcases h with hlt | ⟨heq, heven⟩
  · exact Or.inl (hqr.trans_lt hlt)
  · rcases hqr.lt_or_eq with hlt | rfl
    · exact Or.inl (heq ▸ hlt)
    · exact Or.inr ⟨heq, heven⟩

variable [IsStrictOrderedRing K]

/-- A grid point rounds to its own index. -/
@[simp] theorem round_point (n : ℕ) : g.round (g.point n) = n := by
  have hlt : g.point n < g.point (n + 1) := g.strictMono (Nat.lt_succ_self n)
  have hdown : g.StaysDown (g.point n) := by
    left
    rw [index_point]
    linarith
  rw [round, if_pos hdown, index_point]

/-! ## Middles between points -/

theorem point_lt_midpoint (n : ℕ) : g.point n < g.midpoint n := by
  have h := g.strictMono (Nat.lt_succ_self n)
  rw [midpoint]
  linarith

theorem midpoint_lt_point_succ (n : ℕ) : g.midpoint n < g.point (n + 1) := by
  have h := g.strictMono (Nat.lt_succ_self n)
  rw [midpoint]
  linarith

theorem staysDown_iff {q : K} : g.StaysDown q ↔ g.BelowMiddle q (g.index q) := by
  unfold StaysDown BelowMiddle midpoint
  apply or_congr
  · rw [lt_div_iff₀ two_pos]
    constructor <;> intro h <;> linarith
  · apply and_congr_left'
    rw [eq_div_iff two_ne_zero]
    constructor <;> intro h <;> linarith

/-- A value rounds to a point or below exactly when it does not pass the middle after it. -/
theorem round_le_iff {q : K} (hq : g.point 0 ≤ q) {n : ℕ} : g.round q ≤ n ↔ g.BelowMiddle q n := by
  rcases lt_trichotomy (g.index q) n with h | h | h
  · -- the value is below the next point already
    have hlt : q < g.midpoint n := calc
      q < g.point (g.index q + 1) := g.lt_point_succ hq
      _ ≤ g.point n := g.strictMono.monotone h
      _ < g.midpoint n := g.point_lt_midpoint n
    exact iff_of_true ((g.round_le_index_succ q).trans h) (Or.inl hlt)
  · rw [← h, ← staysDown_iff, round]
    split_ifs with hdown
    · exact iff_of_true le_rfl hdown
    · exact iff_of_false (Nat.not_succ_le_self _) hdown
  · -- the value is at or above the next point
    have hlt : g.midpoint n < q := calc
      g.midpoint n < g.point (n + 1) := g.midpoint_lt_point_succ n
      _ ≤ g.point (g.index q) := g.strictMono.monotone h
      _ ≤ q := g.point_index_le hq
    refine iff_of_false (h.trans_le (g.index_le_round q)).not_ge ?_
    rintro (hlow | ⟨heq, -⟩)
    · exact hlow.not_gt hlt
    · exact hlt.ne' heq

/-- Rounding is monotone. -/
theorem round_mono {q r : K} (hq : g.point 0 ≤ q) (hqr : q ≤ r) : g.round q ≤ g.round r := by
  -- the middle that `r` does not pass is not passed by `q` either
  have hr : g.BelowMiddle r (g.round r) := (g.round_le_iff (hq.trans hqr)).mp le_rfl
  exact (g.round_le_iff hq).mpr (hr.mono hqr)

theorem round_le_of_le_point {q : K} (hq : g.point 0 ≤ q) {n : ℕ} (h : q ≤ g.point n) :
    g.round q ≤ n := by
  simpa using g.round_mono hq h

theorem le_round_of_point_le {q : K} {n : ℕ} (h : g.point n ≤ q) : n ≤ g.round q := by
  have h0 : g.point 0 ≤ g.point n := g.strictMono.monotone (Nat.zero_le n)
  simpa using g.round_mono h0 h

/-- Two values round to different points exactly when a middle separates them. -/
theorem round_lt_round_iff {q r : K} (hq : g.point 0 ≤ q) (hr : g.point 0 ≤ r) :
    g.round q < g.round r ↔ g.Separated q r := by
  simp only [Separated, ← g.round_le_iff hq, ← g.round_le_iff hr, not_le]
  constructor
  · intro h
    exact ⟨g.round q, le_rfl, h⟩
  · rintro ⟨n, hqn, hnr⟩
    exact hqn.trans_lt hnr

end Grid

end Numeric
