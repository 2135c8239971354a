import FuzzyRegion.Core.Backend
import FuzzyRegion.Pg.Interop

/-!
# The backend through SPI

The production engine computes nothing itself: each of its methods sends one SQL statement to the
database and expects one value back. The database may return an error or no value, and both are
errors of the engine. The database is a parameter here, an `Spi`; what is assumed of it is that the
values it returns are those of the PostGIS functions in the statement.

## Main definitions

* `Spi`: the queries of a single value
* `postgisBackend`: the methods of `PostgisEngine`, as statements
* `PointFunctions`, `idealBackend`: the methods without failures
* `Spi.Computes`: the values that the database returns are right
* `Spi.FailsAs`, `Spi.Reliable`: the errors that it returns

## Main results

* `BackendAnswers.of_failsAs`: such a database answers as the ideal backend does, or fails
-/

namespace FuzzyRegion

open Numeric Fallible

/-- A point value stored as EWKB. -/
structure PostgisPoint where
  ewkb : List UInt8
  nonEmpty : ewkb ≠ []

instance : DecidableEq PostgisPoint := fun left right =>
  decidable_of_iff (left.ewkb = right.ewkb) (by cases left; cases right; simp)

variable {S : Type}

/-- `PostgisPoint::from_ewkb`. -/
def PostgisPoint.fromEwkb (ewkb : List UInt8) : Except (PostgisError S) PostgisPoint :=
  if h : ewkb = [] then .error .emptyPointBytes else .ok ⟨ewkb, h⟩

/-- An argument of a statement. -/
inductive SpiArg where
  | bytea (bytes : List UInt8)
  | int4 (value : Int32)
deriving DecidableEq

/-- `Spi::get_one_with_args` at the types in use: an error, no value, or a value. -/
structure Spi (S : Type) where
  getBytes : String → List SpiArg → Except S (Option (List UInt8))
  getBool : String → List SpiArg → Except S (Option Bool)
  getI32 : String → List SpiArg → Except S (Option Int32)
  getF64 : String → List SpiArg → Except S (Option F64)
  getString : String → List SpiArg → Except S (Option (List Char))

/-! ## Queries -/

/-- A statement, and what the engine is doing with it. -/
structure SpiQuery where
  context : String
  sql : String

/-- The value of a row, which must not be `NULL`. -/
def SpiQuery.value {α : Type} (query : SpiQuery) (row : Except S (Option α)) :
    Except (PostgisError S) α := do
  match ← row.mapError PostgisError.spi with
  | some value => .ok value
  | none => .error (.nullResult query.context)

namespace Spi

variable (spi : Spi S)

def queryGeometry (query : SpiQuery) (args : List SpiArg) :
    Except (PostgisError S) PostgisGeometry := do
  let ewkb ← query.value (spi.getBytes query.sql args)
  PostgisGeometry.fromEwkb ewkb

def queryBool (query : SpiQuery) (args : List SpiArg) : Except (PostgisError S) Bool :=
  query.value (spi.getBool query.sql args)

def queryI32 (query : SpiQuery) (args : List SpiArg) : Except (PostgisError S) Int32 :=
  query.value (spi.getI32 query.sql args)

def queryF64 (query : SpiQuery) (args : List SpiArg) : Except (PostgisError S) F64 :=
  query.value (spi.getF64 query.sql args)

def queryString (query : SpiQuery) (args : List SpiArg) : Except (PostgisError S) (List Char) :=
  query.value (spi.getString query.sql args)

end Spi

namespace SpiQuery

def normalizeMultipolygon : SpiQuery where
  context := "normalizing a geometry to canonical MULTIPOLYGON form"
  sql := "SELECT ST_AsEWKB(ST_Multi(ST_CollectionExtract(ST_GeomFromEWKB($1), 3)))"

def isEmpty : SpiQuery where
  context := "checking whether a geometry is empty"
  sql := "SELECT ST_IsEmpty(ST_GeomFromEWKB($1))"

def srid : SpiQuery where
  context := "reading a geometry SRID"
  sql := "SELECT ST_SRID(ST_GeomFromEWKB($1))"

def topologicallyEquals : SpiQuery where
  context := "checking topological equality"
  sql := "SELECT ST_Equals(ST_GeomFromEWKB($1), ST_GeomFromEWKB($2))"

def contains : SpiQuery where
  context := "checking geometric containment"
  sql := "SELECT ST_Covers(ST_GeomFromEWKB($1), ST_GeomFromEWKB($2))"

/-- The statement of `contains`, on a point. -/
def containsPoint : SpiQuery where
  context := "checking point membership in a geometry"
  sql := "SELECT ST_Covers(ST_GeomFromEWKB($1), ST_GeomFromEWKB($2))"

def union : SpiQuery where
  context := "computing a PostGIS union"
  sql := "SELECT ST_AsEWKB(ST_Union(ST_GeomFromEWKB($1), ST_GeomFromEWKB($2)))"

def intersection : SpiQuery where
  context := "computing a PostGIS intersection"
  sql := "SELECT ST_AsEWKB(ST_Intersection(ST_GeomFromEWKB($1), ST_GeomFromEWKB($2)))"

def difference : SpiQuery where
  context := "computing a PostGIS difference"
  sql := "SELECT ST_AsEWKB(ST_Difference(ST_GeomFromEWKB($1), ST_GeomFromEWKB($2)))"

def area : SpiQuery where
  context := "computing geometry area"
  sql := "SELECT ST_Area(ST_GeomFromEWKB($1))"

def boundingBox : SpiQuery where
  context := "computing a geometry bounding box"
  sql := "SELECT ST_AsEWKB(ST_Envelope(ST_GeomFromEWKB($1)))"

def emptyWithSrid : SpiQuery where
  context := "constructing an empty multipolygon with SRID"
  sql := "SELECT ST_AsEWKB(ST_SetSRID(ST_GeomFromText('MULTIPOLYGON EMPTY'), $1))"

def emptyWithoutSrid : SpiQuery where
  context := "constructing an empty multipolygon without SRID"
  sql := "SELECT ST_AsEWKB(ST_GeomFromText('MULTIPOLYGON EMPTY'))"

def isPoint : SpiQuery where
  context := "validating a point geometry argument"
  sql := "SELECT ST_GeometryType(ST_GeomFromEWKB($1)) = 'ST_Point' AND NOT " ++
    "ST_IsEmpty(ST_GeomFromEWKB($1))"

/-- The statement of `srid`, on a point. -/
def pointSrid : SpiQuery where
  context := "reading a point SRID"
  sql := "SELECT ST_SRID(ST_GeomFromEWKB($1))"

def ewkt : SpiQuery where
  context := "formatting a geometry as EWKT"
  sql := "SELECT ST_AsEWKT(ST_GeomFromEWKB($1))"

end SpiQuery

/-! ## The methods of the engine -/

/-- The methods of `PostgisEngine`: the geometry engine, and those outside the trait. -/
structure PostgisBackend (S : Type) where
  engine : PostgisEngine PostgisPoint S
  emptyMultipolygon : Option Int32 → Except (PostgisError S) PostgisGeometry
  pointFromEwkb : List UInt8 → Except (PostgisError S) PostgisPoint
  pointSrid : PostgisPoint → Except (PostgisError S) Int32
  geometryToEwkt : PostgisGeometry → Except (PostgisError S) (List Char)

def PostgisGeometry.arg (geometry : PostgisGeometry) : SpiArg := .bytea geometry.ewkb

def PostgisPoint.arg (point : PostgisPoint) : SpiArg := .bytea point.ewkb

/-- `impl GeometryEngine for PostgisEngine`. -/
def postgisEngine (spi : Spi S) : PostgisEngine PostgisPoint S where
  normalizeMultipolygon geometry := spi.queryGeometry .normalizeMultipolygon [geometry.arg]
  isEmpty geometry := spi.queryBool .isEmpty [geometry.arg]
  srid geometry := spi.queryI32 .srid [geometry.arg]
  topologicallyEquals left right := spi.queryBool .topologicallyEquals [left.arg, right.arg]
  contains container containee := spi.queryBool .contains [container.arg, containee.arg]
  containsPoint geometry point := spi.queryBool .containsPoint [geometry.arg, point.arg]
  union left right := spi.queryGeometry .union [left.arg, right.arg]
  intersection left right := spi.queryGeometry .intersection [left.arg, right.arg]
  difference left right := spi.queryGeometry .difference [left.arg, right.arg]
  area geometry := spi.queryF64 .area [geometry.arg]
  boundingBox geometry := spi.queryGeometry .boundingBox [geometry.arg]

def emptyMultipolygon (spi : Spi S) (srid : Option Int32) :
    Except (PostgisError S) PostgisGeometry :=
  match srid with
  | some srid => spi.queryGeometry .emptyWithSrid [.int4 srid]
  | none => spi.queryGeometry .emptyWithoutSrid []

/-- The bytes of a point argument, which must be a non-empty point. -/
def pointFromEwkb (spi : Spi S) (ewkb : List UInt8) : Except (PostgisError S) PostgisPoint := do
  let point ← PostgisPoint.fromEwkb ewkb
  let isValid ← spi.queryBool .isPoint [point.arg]
  if !isValid then throw .invalidPointGeometry
  return point

def postgisBackend (spi : Spi S) : PostgisBackend S where
  engine := postgisEngine spi
  emptyMultipolygon := FuzzyRegion.emptyMultipolygon spi
  pointFromEwkb := FuzzyRegion.pointFromEwkb spi
  pointSrid point := spi.queryI32 .pointSrid [point.arg]
  geometryToEwkt geometry := spi.queryString .ewkt [geometry.arg]

/-! ## The methods without failures -/

/-- What the methods outside the trait compute. -/
structure PointFunctions where
  isPoint : PostgisPoint → Bool
  pointSrid : PostgisPoint → Int32
  ewkt : PostgisGeometry → List Char
  emptyMultipolygon : Option Int32 → PostgisGeometry

/-- The backend that computes the operations and never fails. -/
def idealBackend (S : Type) (c : CrispEngine PostgisGeometry PostgisPoint) (f : PointFunctions) :
    PostgisBackend S where
  engine := c.engine (PostgisError S)
  emptyMultipolygon srid := .ok (f.emptyMultipolygon srid)
  pointFromEwkb ewkb := do
    let point ← PostgisPoint.fromEwkb ewkb
    if !f.isPoint point then throw .invalidPointGeometry
    return point
  pointSrid point := .ok (f.pointSrid point)
  geometryToEwkt geometry := .ok (f.ewkt geometry)

/-- The backend answers as the ideal one, unless it fails in the given way. -/
structure BackendAnswers (failed : PostgisError S → Prop) (backend : PostgisBackend S)
    (c : CrispEngine PostgisGeometry PostgisPoint) (f : PointFunctions) : Prop where
  engine : Answers failed (fun point => f.isPoint point = true) backend.engine c
  emptyMultipolygon : ∀ srid,
    EndsAs failed (backend.emptyMultipolygon srid) ((idealBackend S c f).emptyMultipolygon srid)
  pointFromEwkb : ∀ ewkb,
    EndsAs failed (backend.pointFromEwkb ewkb) ((idealBackend S c f).pointFromEwkb ewkb)
  pointSrid : ∀ point, f.isPoint point = true →
    EndsAs failed (backend.pointSrid point) ((idealBackend S c f).pointSrid point)
  geometryToEwkt : ∀ geometry,
    EndsAs failed (backend.geometryToEwkt geometry) ((idealBackend S c f).geometryToEwkt geometry)

/-! ## What is assumed of the database -/

/-- A row with a value has the given one. -/
def RowIs {α : Type} (row : Except S (Option α)) (value : α) : Prop :=
  ∀ found, row = .ok (some found) → found = value

/-- The values that the database returns are those of the operations. -/
structure Spi.Computes (spi : Spi S) (c : CrispEngine PostgisGeometry PostgisPoint)
    (f : PointFunctions) : Prop where
  normalizeMultipolygon : ∀ g : PostgisGeometry,
    RowIs (spi.getBytes SpiQuery.normalizeMultipolygon.sql [g.arg]) (c.normalizeMultipolygon g).ewkb
  isEmpty : ∀ g : PostgisGeometry, RowIs (spi.getBool SpiQuery.isEmpty.sql [g.arg]) (c.isEmpty g)
  srid : ∀ g : PostgisGeometry, RowIs (spi.getI32 SpiQuery.srid.sql [g.arg]) (c.srid g)
  topologicallyEquals : ∀ g h : PostgisGeometry,
    RowIs (spi.getBool SpiQuery.topologicallyEquals.sql [g.arg, h.arg]) (c.topologicallyEquals g h)
  contains : ∀ g h : PostgisGeometry,
    RowIs (spi.getBool SpiQuery.contains.sql [g.arg, h.arg]) (c.contains g h)
  containsPoint : ∀ (g : PostgisGeometry) (p : PostgisPoint), f.isPoint p = true →
    RowIs (spi.getBool SpiQuery.containsPoint.sql [g.arg, p.arg]) (c.containsPoint g p)
  union : ∀ g h : PostgisGeometry,
    RowIs (spi.getBytes SpiQuery.union.sql [g.arg, h.arg]) (c.union g h).ewkb
  intersection : ∀ g h : PostgisGeometry,
    RowIs (spi.getBytes SpiQuery.intersection.sql [g.arg, h.arg]) (c.intersection g h).ewkb
  difference : ∀ g h : PostgisGeometry,
    RowIs (spi.getBytes SpiQuery.difference.sql [g.arg, h.arg]) (c.difference g h).ewkb
  area : ∀ g : PostgisGeometry, RowIs (spi.getF64 SpiQuery.area.sql [g.arg]) (c.area g)
  boundingBox : ∀ g : PostgisGeometry,
    RowIs (spi.getBytes SpiQuery.boundingBox.sql [g.arg]) (c.boundingBox g).ewkb
  emptyWithSrid : ∀ s,
    RowIs (spi.getBytes SpiQuery.emptyWithSrid.sql [.int4 s]) (f.emptyMultipolygon (some s)).ewkb
  emptyWithoutSrid :
    RowIs (spi.getBytes SpiQuery.emptyWithoutSrid.sql []) (f.emptyMultipolygon none).ewkb
  isPoint : ∀ p : PostgisPoint, RowIs (spi.getBool SpiQuery.isPoint.sql [p.arg]) (f.isPoint p)
  pointSrid : ∀ p : PostgisPoint, f.isPoint p = true →
    RowIs (spi.getI32 SpiQuery.pointSrid.sql [p.arg]) (f.pointSrid p)
  ewkt : ∀ g : PostgisGeometry, RowIs (spi.getString SpiQuery.ewkt.sql [g.arg]) (f.ewkt g)

/-- The errors of a query: one of the interface, or a value that is missing. -/
inductive Unanswered : PostgisError S → Prop where
  | spi (error : S) : Unanswered (.spi error)
  | nullResult (context : String) : Unanswered (.nullResult context)

/-- The errors and the missing values of the database end in errors of the given kind. -/
structure Spi.FailsAs (failed : PostgisError S → Prop) (spi : Spi S) : Prop where
  getBytes : ∀ (query : SpiQuery) (args : List SpiArg),
    ErrorsIn failed (query.value (spi.getBytes query.sql args))
  getBool : ∀ (query : SpiQuery) (args : List SpiArg),
    ErrorsIn failed (query.value (spi.getBool query.sql args))
  getI32 : ∀ (query : SpiQuery) (args : List SpiArg),
    ErrorsIn failed (query.value (spi.getI32 query.sql args))
  getF64 : ∀ (query : SpiQuery) (args : List SpiArg),
    ErrorsIn failed (query.value (spi.getF64 query.sql args))
  getString : ∀ (query : SpiQuery) (args : List SpiArg),
    ErrorsIn failed (query.value (spi.getString query.sql args))

/-- A database that answers every query. -/
abbrev Spi.Reliable (spi : Spi S) : Prop := spi.FailsAs fun _ => False

theorem SpiQuery.value_errorsIn {α : Type} (query : SpiQuery) (row : Except S (Option α)) :
    ErrorsIn Unanswered (query.value row) := by
  unfold SpiQuery.value
  cases row with
  | error e => exact .error (.spi e)
  | ok found =>
    cases found with
    | none => exact .error (.nullResult query.context)
    | some found => exact .ok found

theorem Spi.failsAs_unanswered (spi : Spi S) : spi.FailsAs Unanswered where
  getBytes query args := query.value_errorsIn (spi.getBytes query.sql args)
  getBool query args := query.value_errorsIn (spi.getBool query.sql args)
  getI32 query args := query.value_errorsIn (spi.getI32 query.sql args)
  getF64 query args := query.value_errorsIn (spi.getF64 query.sql args)
  getString query args := query.value_errorsIn (spi.getString query.sql args)

section

variable {failed : PostgisError S → Prop} {spi : Spi S} {query : SpiQuery}

theorem SpiQuery.value_endsAs {α : Type} {row : Except S (Option α)} {value : α}
    (hfail : ErrorsIn failed (query.value row)) (h : RowIs row value) :
    EndsAs failed (query.value row) (.ok value) := by
  refine .of_errorsIn hfail fun found hfound => ?_
  cases row with
  | error e => cases hfound
  | ok row =>
    cases row with
    | none => cases hfound
    | some found' =>
      obtain rfl := Except.ok.inj hfound
      exact h found' rfl

theorem PostgisGeometry.fromEwkb_ewkb (g : PostgisGeometry) :
    PostgisGeometry.fromEwkb g.ewkb = (.ok g : Except (PostgisError S) _) :=
  dif_neg g.nonEmpty

theorem queryGeometry_endsAs (hspi : spi.FailsAs failed) {args : List SpiArg}
    {g : PostgisGeometry} (h : RowIs (spi.getBytes query.sql args) g.ewkb) :
    EndsAs failed (spi.queryGeometry query args) (.ok g) := by
  rw [← PostgisGeometry.fromEwkb_ewkb, ← ok_bind g.ewkb PostgisGeometry.fromEwkb]
  exact (SpiQuery.value_endsAs (hspi.getBytes query args) h).bind fun _ => .refl _

variable {c : CrispEngine PostgisGeometry PostgisPoint} {f : PointFunctions}

/-- **A database whose values are right makes a backend that is right or fails**, in the way in
which the database fails. -/
theorem BackendAnswers.of_failsAs (h : spi.Computes c f) (hspi : spi.FailsAs failed) :
    BackendAnswers failed (postgisBackend spi) c f where
  engine := {
    normalizeMultipolygon := fun g => queryGeometry_endsAs hspi (h.normalizeMultipolygon g)
    isEmpty := fun g => SpiQuery.value_endsAs (hspi.getBool _ _) (h.isEmpty g)
    srid := fun g => SpiQuery.value_endsAs (hspi.getI32 _ _) (h.srid g)
    topologicallyEquals := fun g g' =>
      SpiQuery.value_endsAs (hspi.getBool _ _) (h.topologicallyEquals g g')
    contains := fun g g' => SpiQuery.value_endsAs (hspi.getBool _ _) (h.contains g g')
    containsPoint := fun g p hp => SpiQuery.value_endsAs (hspi.getBool _ _) (h.containsPoint g p hp)
    union := fun g g' => queryGeometry_endsAs hspi (h.union g g')
    intersection := fun g g' => queryGeometry_endsAs hspi (h.intersection g g')
    difference := fun g g' => queryGeometry_endsAs hspi (h.difference g g')
    area := fun g => SpiQuery.value_endsAs (hspi.getF64 _ _) (h.area g)
    boundingBox := fun g => queryGeometry_endsAs hspi (h.boundingBox g) }
  emptyMultipolygon := by
    intro srid
    cases srid with
    | none => exact queryGeometry_endsAs hspi h.emptyWithoutSrid
    | some s => exact queryGeometry_endsAs hspi (h.emptyWithSrid s)
  pointFromEwkb := by
    intro ewkb
    refine (EndsAs.refl _).bind fun point => ?_
    exact (SpiQuery.value_endsAs (hspi.getBool _ _) (h.isPoint point)).bind fun _ => .refl _
  pointSrid p hp := SpiQuery.value_endsAs (hspi.getI32 _ _) (h.pointSrid p hp)
  geometryToEwkt g := SpiQuery.value_endsAs (hspi.getString _ _) (h.ewkt g)

theorem BackendAnswers.of_computes (h : spi.Computes c f) :
    BackendAnswers Unanswered (postgisBackend spi) c f :=
  .of_failsAs h spi.failsAs_unanswered

end

end FuzzyRegion
