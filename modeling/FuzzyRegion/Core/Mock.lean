import FuzzyRegion.Core.PointSet

/-!
# The engine of the source's tests

A geometry is a finite set of numbered cells with an SRID, and the operations are the set
operations. It meets every assumption made on engines, so the results about point-set engines are
about something, and it is where a statement is run on concrete regions.

## Main definitions

* `MockGeometry`, `mockEngine`: the engine of the tests
* `exactAlpha`, `binaryAlpha`: an alpha of exact and one of binary64 arithmetic
* `hill`, `plateau`: two regions over exact alphas

## Main results

* `canonicalize_hill`, `canonicalize_plateau`: both regions are canonical forms
-/

namespace FuzzyRegion

open Numeric

/-- A finite set of cells. -/
structure MockGeometry where
  srid : Int32
  cells : Finset Int32
deriving DecidableEq

/-- The operations of `MockEngine`. -/
def mockOperations : CrispEngine MockGeometry Int32 where
  normalizeMultipolygon geometry := geometry
  isEmpty geometry := decide (geometry.cells = ∅)
  srid := MockGeometry.srid
  topologicallyEquals left right := decide (left.srid = right.srid ∧ left.cells = right.cells)
  contains container containee :=
    decide (container.srid = containee.srid ∧ containee.cells ⊆ container.cells)
  containsPoint geometry point := decide (point ∈ geometry.cells)
  union left right := ⟨left.srid, left.cells ∪ right.cells⟩
  intersection left right := ⟨left.srid, left.cells ∩ right.cells⟩
  difference left right := ⟨left.srid, left.cells \ right.cells⟩
  area geometry := Numeric.F64.ofRat false geometry.cells.card
  boundingBox geometry := geometry

/-- `MockEngine`, with the point sets that its geometries denote. -/
def mockEngine : ExtensionalEngine MockGeometry Int32 where
  toCrispEngine := mockOperations
  points geometry := {p | p ∈ geometry.cells}
  isEmpty_iff := by
    intro g
    rw [mockOperations, decide_eq_true_iff, Finset.eq_empty_iff_forall_notMem,
      Set.eq_empty_iff_forall_notMem]
    rfl
  containsPoint_iff := decide_eq_true_iff
  topologicallyEquals_iff := by
    intro g h hsrid
    rw [mockOperations, decide_eq_true_iff, Finset.ext_iff, Set.ext_iff]
    exact and_iff_right hsrid
  contains_iff := by
    intro g h hsrid
    rw [mockOperations, decide_eq_true_iff]
    exact and_iff_right hsrid
  points_union _ := by
    ext p
    exact Finset.mem_union
  srid_union _ := rfl
  points_intersection _ := by
    ext p
    exact Finset.mem_inter
  srid_intersection _ := rfl
  points_difference _ := by
    ext p
    exact Finset.mem_sdiff
  srid_difference _ := rfl
  srid_normalize _ := rfl
  normalize_subset _ := Set.Subset.rfl
  normalize_mono _ h := h
  normalize_idem _ := rfl
  points_normalize _ := rfl
  normalize_ext := by
    intro g h hpoints hsrid
    obtain ⟨s, cells⟩ := g
    obtain ⟨s', cells'⟩ := h
    obtain rfl : s = s' := hsrid
    exact congrArg (MockGeometry.mk s) (Finset.ext fun p => Set.ext_iff.mp hpoints p)

/-- An alpha of exact arithmetic. -/
def exactAlpha (q : ℚ) (h : 0 < q ∧ q ≤ 1) : Alpha ℚ where
  value := q
  finite := rfl
  aboveZero := decide_eq_false h.1.not_ge
  atMostOne := decide_eq_false h.2.not_gt

/-- An alpha of binary64 arithmetic, from its bits. -/
def binaryAlpha (bits : BitVec 64)
    (h : Scalar.isFinite (F64.mk bits) = true ∧ Scalar.le (F64.mk bits) Scalar.zero = false ∧
      Scalar.lt Scalar.one (F64.mk bits) = false) : Alpha F64 where
  value := ⟨bits⟩
  finite := h.1
  aboveZero := h.2.1
  atMostOne := h.2.2

def fourFifths : Alpha ℚ := exactAlpha (4 / 5) (by norm_num)

/-- Two levels: a summit inside a wider slope. -/
def hill : Fuzzyregion ℚ MockGeometry where
  srid := some 4326
  levels := [⟨Alpha.one, ⟨4326, {1}⟩⟩,
    ⟨exactAlpha (1 / 2) (by norm_num), ⟨4326, {1, 2}⟩⟩]

/-- One level. -/
def plateau : Fuzzyregion ℚ MockGeometry where
  srid := some 4326
  levels := [⟨fourFifths, ⟨4326, {2, 3}⟩⟩]

theorem canonicalize_hill :
    Fuzzyregion.canonicalize ⟨hill.levels.reverse⟩ (mockEngine.engine Empty) = .ok hill := by
  decide +kernel

theorem canonicalize_plateau :
    Fuzzyregion.canonicalize ⟨plateau.levels⟩ (mockEngine.engine Empty) = .ok plateau := by
  decide +kernel

theorem canonical_hill : Fuzzyregion.Canonical (mockEngine.engine Empty) hill :=
  Fuzzyregion.canonicalize_canonical canonicalize_hill

theorem canonical_plateau : Fuzzyregion.Canonical (mockEngine.engine Empty) plateau :=
  Fuzzyregion.canonicalize_canonical canonicalize_plateau

end FuzzyRegion
