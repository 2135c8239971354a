import FuzzyRegion.Core.SetLaws
import FuzzyRegion.Pg.Lossless

/-!
# A point-set engine on byte strings

The first byte of a geometry is its reference system and the others are its cells, in any order and
with repetitions. Normalization drops the repetitions: it changes bytes and keeps points.

## Main definitions

* `PostgisGeometry.zone`, `PostgisGeometry.zoned`: a geometry and its reference system
* `zoneEngine`: the engine of the sets of cells
-/

namespace FuzzyRegion

open Numeric

namespace PostgisGeometry

/-- The reference system of a geometry. -/
def zone (geometry : PostgisGeometry) : UInt8 := geometry.ewkb.head geometry.nonEmpty

def zoned (zone : UInt8) (cells : List UInt8) : PostgisGeometry :=
  ⟨zone :: cells, List.cons_ne_nil zone cells⟩

@[simp] theorem zone_zoned (z : UInt8) (cells : List UInt8) : (zoned z cells).zone = z := rfl

@[simp] theorem cells_zoned (z : UInt8) (cells : List UInt8) : (zoned z cells).cells = cells := rfl

end PostgisGeometry

open PostgisGeometry

/-- The operations on sets of cells in the reference system of the left operand. -/
def zoneOperations : CrispEngine PostgisGeometry UInt8 where
  normalizeMultipolygon geometry := zoned geometry.zone geometry.cells.dedup
  isEmpty geometry := geometry.cells.isEmpty
  srid geometry := .ofNat geometry.zone.toNat
  topologicallyEquals left right :=
    decide (left.cells ⊆ right.cells ∧ right.cells ⊆ left.cells)
  contains container containee := decide (containee.cells ⊆ container.cells)
  containsPoint geometry point := decide (point ∈ geometry.cells)
  union left right := zoned left.zone (left.cells ++ right.cells)
  intersection left right := zoned left.zone (left.cells.filter fun cell => cell ∈ right.cells)
  difference left right := zoned left.zone (left.cells.filter fun cell => cell ∉ right.cells)
  area geometry := F64.ofRat false geometry.cells.dedup.length
  boundingBox geometry := geometry

/-- The operations with the sets of cells that geometries denote. -/
def zoneEngine : PointSetEngine PostgisGeometry UInt8 where
  toCrispEngine := zoneOperations
  points geometry := {p | p ∈ geometry.cells}
  isEmpty_iff := by
    intro g
    rw [zoneOperations, List.isEmpty_iff, List.eq_nil_iff_forall_not_mem,
      Set.eq_empty_iff_forall_notMem]
    rfl
  containsPoint_iff := decide_eq_true_iff
  topologicallyEquals_iff := by
    intro g h _
    rw [zoneOperations, decide_eq_true_iff, Set.Subset.antisymm_iff]
    rfl
  contains_iff _ := decide_eq_true_iff
  points_union := by
    intro g h _
    ext p
    exact List.mem_append
  srid_union _ := rfl
  points_intersection := by
    intro g h _
    ext p
    simp [zoneOperations]
  srid_intersection _ := rfl
  points_difference := by
    intro g h _
    ext p
    simp [zoneOperations]
  srid_difference _ := rfl
  srid_normalize _ := rfl
  normalize_subset := by
    intro g p hp
    exact List.mem_dedup.mp hp
  normalize_mono := by
    intro g h _ hsub p hp
    exact List.mem_dedup.mpr (hsub (List.mem_dedup.mp hp))
  normalize_idem := by
    intro g
    ext p
    exact List.mem_dedup
  points_normalize := by
    intro g
    ext p
    exact List.mem_dedup

/-- A certain cell of the reference system `1`. -/
def certainCell : StoredLevel := ⟨Alpha.one, [1, 5], List.cons_ne_nil _ _, by decide⟩

/-- A second normalization finds no repetition. -/
theorem zone_normalize_idem (g : PostgisGeometry) :
    zoneEngine.normalizeMultipolygon (zoneEngine.normalizeMultipolygon g) =
      zoneEngine.normalizeMultipolygon g :=
  congrArg (zoned g.zone) List.dedup_idem

end FuzzyRegion
