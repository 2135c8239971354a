import Mathlib.Order.Defs.LinearOrder
import FuzzyRegion.Pg.Spi
import FuzzyRegion.Pg.Zones

/-!
# A database of cells

The geometries are those of the engine of zones, and a point is a geometry of a single cell.
Normalization also sorts the cells, so that the points and the reference system of a geometry
determine the bytes of its normal form.

## Main definitions

* `siteEngine`: the extensional engine of the sets of cells
* `siteFunctions`: what the backend computes besides
* `siteDatabase`: a database that computes them, with `siteDatabase_computes` and
  `siteDatabase_reliable`
-/

namespace FuzzyRegion

open Numeric PostgisGeometry

/-! ## Cells -/

/-- The cell of a point. -/
def PostgisPoint.cell (point : PostgisPoint) : Option UInt8 :=
  match point.ewkb with
  | [_, cell] => some cell
  | _ => none

/-- The points on cells. -/
def pointsOn (cells : Set UInt8) : Set PostgisPoint := {p | ∃ cell ∈ p.cell, cell ∈ cells}

theorem pointsOn_subset_iff {s t : Set UInt8} : pointsOn s ⊆ pointsOn t ↔ s ⊆ t := by
  constructor
  · intro h cell hcell
    -- some point is on the cell
    obtain ⟨cell', hcell', ht⟩ := h (a := ⟨[1, cell], List.cons_ne_nil _ _⟩) ⟨cell, rfl, hcell⟩
    exact Option.some.inj hcell' ▸ ht
  · rintro h p ⟨cell, hp, hcell⟩
    exact ⟨cell, hp, h hcell⟩

theorem pointsOn_injective : Function.Injective pointsOn := fun _ _ h =>
  (pointsOn_subset_iff.mp h.le).antisymm (pointsOn_subset_iff.mp h.ge)

@[simp] theorem pointsOn_empty : pointsOn ∅ = ∅ :=
  Set.eq_empty_of_forall_notMem fun _ ⟨_, _, h⟩ => h

theorem pointsOn_union (s t : Set UInt8) : pointsOn (s ∪ t) = pointsOn s ∪ pointsOn t := by
  ext p
  constructor
  · rintro ⟨cell, hp, hs | ht⟩
    · exact Or.inl ⟨cell, hp, hs⟩
    · exact Or.inr ⟨cell, hp, ht⟩
  · rintro (⟨cell, hp, hs⟩ | ⟨cell, hp, ht⟩)
    · exact ⟨cell, hp, Or.inl hs⟩
    · exact ⟨cell, hp, Or.inr ht⟩

theorem pointsOn_inter (s t : Set UInt8) : pointsOn (s ∩ t) = pointsOn s ∩ pointsOn t := by
  ext p
  constructor
  · rintro ⟨cell, hp, hs, ht⟩
    exact ⟨⟨cell, hp, hs⟩, cell, hp, ht⟩
  · rintro ⟨⟨cell, hp, hs⟩, cell', hp', ht⟩
    obtain rfl := Option.mem_unique hp hp'
    exact ⟨cell, hp, hs, ht⟩

theorem pointsOn_diff (s t : Set UInt8) : pointsOn (s \ t) = pointsOn s \ pointsOn t := by
  ext p
  constructor
  · rintro ⟨cell, hp, hs, ht⟩
    refine ⟨⟨cell, hp, hs⟩, ?_⟩
    rintro ⟨cell', hp', ht'⟩
    obtain rfl := Option.mem_unique hp hp'
    exact ht ht'
  · rintro ⟨⟨cell, hp, hs⟩, hnot⟩
    exact ⟨cell, hp, hs, fun ht => hnot ⟨cell, hp, ht⟩⟩

/-! ## The engine -/

/-- The cells of a geometry, each once and in order. -/
def tidy (cells : List UInt8) : List UInt8 := cells.dedup.insertionSort (· ≤ ·)

theorem mem_tidy_iff {cells : List UInt8} {cell : UInt8} : cell ∈ tidy cells ↔ cell ∈ cells := by
  rw [tidy, List.mem_insertionSort, List.mem_dedup]

/-- The order and the repetitions of the cells are lost. -/
theorem tidy_eq_of_mem_iff {left right : List UInt8} (h : ∀ cell, cell ∈ left ↔ cell ∈ right) :
    tidy left = tidy right := by
  have hperm : left.dedup.Perm right.dedup := by
    rw [List.perm_ext_iff_of_nodup left.nodup_dedup right.nodup_dedup]
    intro cell
    rw [List.mem_dedup, List.mem_dedup, h]
  have hsorted : ∀ cells : List UInt8, (cells.insertionSort (· ≤ ·)).Pairwise (· ≤ ·) :=
    List.pairwise_insertionSort _
  refine List.Perm.eq_of_pairwise (fun _ _ _ _ h h' => UInt8.le_antisymm h h')
    (hsorted left.dedup) (hsorted right.dedup) ?_
  exact (List.perm_insertionSort _ _).trans (hperm.trans (List.perm_insertionSort _ _).symm)

/-- The cells that a geometry covers. -/
def cellSet (geometry : PostgisGeometry) : Set UInt8 := {cell | cell ∈ geometry.cells}

/-- The operations of the zones, with sorted cells and with points as byte strings. The area is the
share of all cells. -/
def siteOperations : CrispEngine PostgisGeometry PostgisPoint where
  normalizeMultipolygon geometry := zoned geometry.zone (tidy geometry.cells)
  isEmpty := zoneOperations.isEmpty
  srid := zoneOperations.srid
  topologicallyEquals := zoneOperations.topologicallyEquals
  contains := zoneOperations.contains
  containsPoint geometry point := point.cell.any fun cell => cell ∈ geometry.cells
  union := zoneOperations.union
  intersection := zoneOperations.intersection
  difference := zoneOperations.difference
  area geometry := F64.ofRat false (geometry.cells.dedup.length / 256)
  boundingBox := zoneOperations.boundingBox

theorem cellSet_zoned_tidy (geometry : PostgisGeometry) :
    cellSet (zoned geometry.zone (tidy geometry.cells)) = cellSet geometry :=
  Set.ext fun _ => mem_tidy_iff

/-- The operations with the sets of points that geometries denote. -/
def siteEngine : ExtensionalEngine PostgisGeometry PostgisPoint where
  toCrispEngine := siteOperations
  points geometry := pointsOn (cellSet geometry)
  isEmpty_iff := by
    intro g
    rw [← pointsOn_empty, pointsOn_injective.eq_iff]
    exact zoneEngine.isEmpty_iff
  containsPoint_iff := by
    intro g p
    rw [siteOperations, Option.any_eq_true]
    simp only [decide_eq_true_eq]
    rfl
  topologicallyEquals_iff := by
    intro g h hsrid
    rw [pointsOn_injective.eq_iff]
    exact zoneEngine.topologicallyEquals_iff hsrid
  contains_iff := by
    intro g h hsrid
    rw [pointsOn_subset_iff]
    exact zoneEngine.contains_iff hsrid
  points_union hsrid := (congrArg pointsOn (zoneEngine.points_union hsrid)).trans
    (pointsOn_union _ _)
  srid_union _ := rfl
  points_intersection hsrid := (congrArg pointsOn (zoneEngine.points_intersection hsrid)).trans
    (pointsOn_inter _ _)
  srid_intersection _ := rfl
  points_difference hsrid := (congrArg pointsOn (zoneEngine.points_difference hsrid)).trans
    (pointsOn_diff _ _)
  srid_difference _ := rfl
  srid_normalize _ := rfl
  normalize_subset g := (congrArg pointsOn (cellSet_zoned_tidy g)).subset
  normalize_mono := by
    intro g h _ hsub
    simp only [siteOperations, cellSet_zoned_tidy]
    exact hsub
  normalize_idem g := congrArg pointsOn (cellSet_zoned_tidy _)
  points_normalize g := congrArg pointsOn (cellSet_zoned_tidy g)
  normalize_ext := by
    intro g h hpoints hsrid
    have hcells : tidy g.cells = tidy h.cells :=
      tidy_eq_of_mem_iff (Set.ext_iff.mp (pointsOn_injective hpoints))
    have hzone : g.zone = h.zone := by
      have hnat := congrArg Int32.toInt hsrid
      simp only [siteOperations, zoneOperations] at hnat
      rw [Int32.toInt_ofNat_of_lt (by have := g.zone.toNat_lt; omega),
        Int32.toInt_ofNat_of_lt (by have := h.zone.toNat_lt; omega)] at hnat
      exact UInt8.toNat_inj.mp (by exact_mod_cast hnat)
    simp only [siteOperations, hcells, hzone]

/-- A second normalization finds sorted cells. -/
theorem site_normalize_idem (g : PostgisGeometry) :
    siteEngine.normalizeMultipolygon (siteEngine.normalizeMultipolygon g) =
      siteEngine.normalizeMultipolygon g :=
  siteEngine.normalize_ext (siteEngine.points_normalize g) (siteEngine.srid_normalize g)

/-! ## Areas -/

theorem share_mem (cells : List UInt8) :
    (0 : ℚ) ≤ cells.dedup.length / 256 ∧ (cells.dedup.length / 256 : ℚ) ≤ 1 := by
  have hsubset : cells.dedup.map UInt8.toNat ⊆ List.range 256 := by
    intro n hn
    obtain ⟨cell, -, rfl⟩ := List.mem_map.mp hn
    exact List.mem_range.mpr cell.toNat_lt
  have hnodup : (cells.dedup.map UInt8.toNat).Nodup :=
    cells.nodup_dedup.map fun _ _ h => UInt8.toNat_inj.mp h
  have hlength := (hnodup.subperm hsubset).length_le
  rw [List.length_map, List.length_range] at hlength
  refine ⟨by positivity, ?_⟩
  rw [div_le_one (by norm_num)]
  exact_mod_cast hlength

theorem site_area_mono (g h : PostgisGeometry) (hsub : siteEngine.points g ⊆ siteEngine.points h) :
    Scalar.le (siteEngine.area g) (siteEngine.area h) = true := by
  have hlength : (g.cells.dedup.length : ℚ) ≤ h.cells.dedup.length := by
    have hcells : g.cells ⊆ h.cells := fun cell hcell => (pointsOn_subset_iff.mp hsub) hcell
    have hdedup : g.cells.dedup ⊆ h.cells.dedup := fun cell hcell =>
      List.mem_dedup.mpr (hcells (List.mem_dedup.mp hcell))
    exact_mod_cast (g.cells.nodup_dedup.subperm hdedup).length_le
  obtain ⟨hpos, hone⟩ := share_mem g.cells
  obtain ⟨hpos', hone'⟩ := share_mem h.cells
  rw [LawfulScalar.le_iff (F64.toRat_ofRat_mem hpos hone).1 (F64.toRat_ofRat_mem hpos' hone').1]
  exact F64.toRat_ofRat_mono hpos (div_le_div_of_nonneg_right hlength (by norm_num)) hone'

theorem site_area_nonneg (g : PostgisGeometry) :
    Scalar.le Scalar.zero (siteEngine.area g) = true := by
  obtain ⟨hpos, hone⟩ := share_mem g.cells
  obtain ⟨hfinite, hnonneg, -⟩ := F64.toRat_ofRat_mem hpos hone
  rw [LawfulScalar.le_iff LawfulScalar.isFinite_zero hfinite, LawfulScalar.toRat_zero]
  exact hnonneg

/-! ## Points -/

/-- A point is a reference system and a cell. -/
def siteFunctions : PointFunctions where
  isPoint point := point.cell.isSome
  pointSrid point := .ofNat (point.ewkb.head point.nonEmpty).toNat
  ewkt geometry := encodeHex geometry.ewkb
  emptyMultipolygon srid := zoned (UInt8.ofNat (srid.elim 0 fun s => s.toInt.toNat)) []

theorem area_emptyMultipolygon_site (s : Option Int32) :
    siteEngine.area (siteFunctions.emptyMultipolygon s) = F64.zero := by
  have harea : siteEngine.area (siteFunctions.emptyMultipolygon s) = F64.ofRat false 0 :=
    congrArg (F64.ofRat false) (zero_div 256)
  rw [harea]
  decide +kernel

theorem points_emptyMultipolygon_site (s : Option Int32) :
    siteEngine.points (siteFunctions.emptyMultipolygon s) = ∅ :=
  siteEngine.isEmpty_iff.mp rfl

/-! ## The database -/

/-- The geometry with some bytes. -/
def geometryOf (ewkb : List UInt8) : Option PostgisGeometry :=
  if h : ewkb = [] then none else some ⟨ewkb, h⟩

@[simp] theorem geometryOf_ewkb (g : PostgisGeometry) : geometryOf g.ewkb = some g :=
  dif_neg g.nonEmpty

variable {S : Type}

/-- A database that computes the operations of the engine of sites. -/
def siteDatabase (S : Type) : Spi S where
  getBytes sql args := .ok <| some <| match args with
    | [.bytea bytes] => (geometryOf bytes).elim [] fun g =>
      if sql = SpiQuery.normalizeMultipolygon.sql then (siteEngine.normalizeMultipolygon g).ewkb
      else (siteEngine.boundingBox g).ewkb
    | [.bytea left, .bytea right] => (geometryOf left).elim [] fun g =>
      (geometryOf right).elim [] fun h =>
        if sql = SpiQuery.union.sql then (siteEngine.union g h).ewkb
        else if sql = SpiQuery.intersection.sql then (siteEngine.intersection g h).ewkb
        else (siteEngine.difference g h).ewkb
    | [.int4 srid] => (siteFunctions.emptyMultipolygon (some srid)).ewkb
    | _ => (siteFunctions.emptyMultipolygon none).ewkb
  getBool sql args := .ok <| some <| match args with
    | [.bytea bytes] => (geometryOf bytes).any fun g =>
      if sql = SpiQuery.isEmpty.sql then siteEngine.isEmpty g
      else siteFunctions.isPoint ⟨g.ewkb, g.nonEmpty⟩
    | [.bytea left, .bytea right] => (geometryOf left).any fun g => (geometryOf right).any fun h =>
      if sql = SpiQuery.contains.sql then siteEngine.contains g h
      else siteEngine.topologicallyEquals g h
    | _ => false
  getI32 _ args := .ok <| some <| match args with
    | [.bytea bytes] => (geometryOf bytes).elim 0 siteEngine.srid
    | _ => 0
  getF64 _ args := .ok <| some <| match args with
    | [.bytea bytes] => (geometryOf bytes).elim F64.zero siteEngine.area
    | _ => F64.zero
  getString _ args := .ok <| some <| match args with
    | [.bytea bytes] => (geometryOf bytes).elim [] siteFunctions.ewkt
    | _ => []

theorem siteDatabase_reliable : (siteDatabase S).Reliable where
  getBytes _ _ := .ok _
  getBool _ _ := .ok _
  getI32 _ _ := .ok _
  getF64 _ _ := .ok _
  getString _ _ := .ok _

/-- On a point, the covering of its geometry is that of its cell. -/
theorem contains_point {g : PostgisGeometry} {p : PostgisPoint}
    (hp : siteFunctions.isPoint p = true) :
    siteEngine.contains g ⟨p.ewkb, p.nonEmpty⟩ = siteEngine.containsPoint g p := by
  obtain ⟨cell, hcell⟩ := Option.isSome_iff_exists.mp hp
  obtain ⟨ewkb, hne⟩ := p
  unfold PostgisPoint.cell at hcell
  split at hcell
  · next zone c hewkb =>
    obtain rfl : ewkb = [zone, c] := hewkb
    have hcontains : siteEngine.contains g ⟨[zone, c], hne⟩ = true ↔ c ∈ g.cells :=
      decide_eq_true_iff.trans (by simp [PostgisGeometry.cells])
    have hcovers : siteEngine.containsPoint g ⟨[zone, c], hne⟩ = true ↔ c ∈ g.cells :=
      decide_eq_true_iff
    exact Bool.eq_iff_iff.mpr (hcontains.trans hcovers.symm)
  · cases hcell

theorem RowIs.of_eq {α : Type} {row : Except S (Option α)} {value : α}
    (h : row = .ok (some value)) : RowIs row value := fun _ hfound =>
  Option.some.inj (Except.ok.inj (hfound.symm.trans h))

theorem geometryOf_point (p : PostgisPoint) : geometryOf p.ewkb = some ⟨p.ewkb, p.nonEmpty⟩ :=
  dif_neg p.nonEmpty

theorem siteDatabase_computes :
    (siteDatabase S).Computes siteEngine.toCrispEngine siteFunctions where
  normalizeMultipolygon g := .of_eq (by simp [siteDatabase, PostgisGeometry.arg])
  isEmpty g := .of_eq (by simp [siteDatabase, PostgisGeometry.arg])
  srid g := .of_eq (by simp [siteDatabase, PostgisGeometry.arg])
  topologicallyEquals g h := .of_eq (by
    simp [siteDatabase, PostgisGeometry.arg, SpiQuery.topologicallyEquals, SpiQuery.contains])
  contains g h := .of_eq (by simp [siteDatabase, PostgisGeometry.arg])
  containsPoint g p hp := .of_eq (by
    simp [siteDatabase, PostgisGeometry.arg, PostgisPoint.arg, geometryOf_point,
      ← contains_point hp, SpiQuery.contains, SpiQuery.containsPoint])
  union g h := .of_eq (by simp [siteDatabase, PostgisGeometry.arg])
  intersection g h := .of_eq (by
    simp [siteDatabase, PostgisGeometry.arg, SpiQuery.union, SpiQuery.intersection])
  difference g h := .of_eq (by
    simp [siteDatabase, PostgisGeometry.arg, SpiQuery.union, SpiQuery.intersection,
      SpiQuery.difference])
  area g := .of_eq (by simp [siteDatabase, PostgisGeometry.arg])
  boundingBox g := .of_eq (by
    simp [siteDatabase, PostgisGeometry.arg, SpiQuery.normalizeMultipolygon, SpiQuery.boundingBox])
  emptyWithSrid s := .of_eq rfl
  emptyWithoutSrid := .of_eq rfl
  isPoint p := .of_eq (by
    simp [siteDatabase, PostgisPoint.arg, geometryOf_point, SpiQuery.isEmpty, SpiQuery.isPoint])
  pointSrid p hp := .of_eq (by
    simp [siteDatabase, PostgisPoint.arg, geometryOf_point]
    rfl)
  ewkt g := .of_eq (by simp [siteDatabase, PostgisGeometry.arg])

end FuzzyRegion
