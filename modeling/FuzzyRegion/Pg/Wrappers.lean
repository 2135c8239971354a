import Mathlib.Data.Option.NAry
import FuzzyRegion.Pg.Measures

/-!
# The geometry wrappers

The functions of SQL that take and return geometries of PostGIS, over the functions on their bytes.
A region that is built from an array of geometries answers every query from the geometries of the
array.

## Main definitions

* `GeometryType`: the conversions between geometries and bytes
* `fuzzyregionFromGeoms`: the constructor
* `fuzzyregionSupport`, `fuzzyregionCore`, `fuzzyregionAlphaCut`, `fuzzyregionBbox`: the projections
* `fuzzyregionMembershipAt`: the membership at a point

## Main results

* `fromGeoms_answers`: what the queries of a constructed region answer
-/

namespace FuzzyRegion

open Numeric Fallible LevelStack Fuzzyregion SqlFuzzyregion

/-- The type of geometries in SQL: `ST_AsEWKB`, and `ST_GeomFromEWKB` with the bytes that it reads.
-/
structure GeometryType (Geom : Type) where
  asEwkb : Geom → List UInt8
  geomFromEwkb : List UInt8 → Option Geom
  asEwkb_ne_nil : ∀ geom, asEwkb geom ≠ []

/-- Errors of the wrappers. -/
inductive WrapperError (S : Type) where
  | call (error : CallError S)
  /-- `ST_GeomFromEWKB` does not read what a function has returned. -/
  | invalidEwkb (ewkb : List UInt8)

variable {Geom P S : Type}

namespace GeometryType

/-- The bytes of a geometry, as an argument for a region. -/
def toPostgis (T : GeometryType Geom) (geom : Geom) : PostgisGeometry :=
  ⟨T.asEwkb geom, T.asEwkb_ne_nil geom⟩

/-- The bytes of a geometry, as an argument for a point. -/
def toPoint (T : GeometryType Geom) (geom : Geom) : PostgisPoint :=
  ⟨T.asEwkb geom, T.asEwkb_ne_nil geom⟩

/-- A geometry that is read from bytes covers what they cover. -/
def Faithful (T : GeometryType Geom) (c : CrispEngine PostgisGeometry PostgisPoint) : Prop :=
  ∀ (g : PostgisGeometry) (geom : Geom), T.geomFromEwkb g.ewkb = some geom →
    ∀ p, c.containsPoint (T.toPostgis geom) p = c.containsPoint g p

/-- The geometry that a function has returned. -/
def read (T : GeometryType Geom) (result : Except (CallError S) (List UInt8)) :
    Except (WrapperError S) Geom := do
  let ewkb ← result.mapError WrapperError.call
  match T.geomFromEwkb ewkb with
  | some geom => .ok geom
  | none => .error (.invalidEwkb ewkb)

end GeometryType

/-! ## The wrappers -/

/-- A strict function of SQL returns `NULL` for a `NULL`. -/
def strict {ε α β : Type} (f : α → Except ε β) : Option α → Except ε (Option β)
  | some a => some <$> f a
  | none => .ok none

section

variable (T : GeometryType Geom)

/-- The constructor is strict, and `unnest` has no rows for a `NULL`. -/
def fuzzyregionFromGeoms (engine : PostgisEngine P S) (alphas : Option (List (Option F64)))
    (geoms : Option (List (Option Geom))) : Except (ApiError S) (Option SqlFuzzyregion) :=
  strict (fun alphas => fuzzyregionFromEwkb engine alphas
    ((geoms.getD []).map fun geom => geom.map T.asEwkb)) alphas

variable (backend : PostgisBackend S) (f64 : F64Text)

def fuzzyregionSupport (fr : Option SqlFuzzyregion) : Except (WrapperError S) (Option Geom) :=
  strict (fun fr => T.read (fuzzyregionSupportEwkb backend fr)) fr

def fuzzyregionCore (fr : Option SqlFuzzyregion) : Except (WrapperError S) (Option Geom) :=
  strict (fun fr => T.read (fuzzyregionCoreEwkb backend fr)) fr

def fuzzyregionAlphaCut (fr : Option SqlFuzzyregion) (alpha : Option F64) :
    Except (WrapperError S) (Option Geom) :=
  strict (fun (fr, alpha) => T.read (fuzzyregionAlphaCutEwkb backend fr alpha))
    (Option.map₂ Prod.mk fr alpha)

def fuzzyregionMembershipAt (fr : Option SqlFuzzyregion) (p : Option Geom) :
    Except (CallError S) (Option F64) :=
  strict (fun (fr, p) => fuzzyregionMembershipAtEwkb backend f64 fr (T.asEwkb p))
    (Option.map₂ Prod.mk fr p)

def fuzzyregionBbox (fr : Option SqlFuzzyregion) : Except (WrapperError S) (Option Geom) :=
  strict (fun fr => T.read (fuzzyregionBboxEwkb backend f64 fr)) fr

/-- The wrapper of a cut. -/
def SqlCut.project (cut : SqlCut) (fr : Option SqlFuzzyregion) :
    Except (WrapperError S) (Option Geom) :=
  match cut with
  | support => fuzzyregionSupport T backend fr
  | core => fuzzyregionCore T backend fr
  | alphaCut alpha => fuzzyregionAlphaCut T backend fr (some alpha)

end

/-! ## Conversions -/

section

variable {T : GeometryType Geom}

theorem strict_eq_ok_some_iff {ε α β : Type} {f : α → Except ε β} {a : Option α} {b : β} :
    strict f a = .ok (some b) ↔ ∃ x, a = some x ∧ f x = .ok b := by
  cases a with
  | none => simp [strict]
  | some x => simp [strict, map_eq_ok_iff]

theorem SqlCut.project_some (cut : SqlCut) (backend : PostgisBackend S) (fr : SqlFuzzyregion) :
    cut.project T backend (some fr) = some <$> T.read (cut.run backend fr) := by
  cases cut <;> rfl

theorem GeometryType.read_eq_ok_iff {result : Except (CallError S) (List UInt8)} {geom : Geom} :
    T.read result = .ok geom ↔ ∃ ewkb, result = .ok ewkb ∧ T.geomFromEwkb ewkb = some geom := by
  rw [read, bind_eq_ok_iff]
  refine exists_congr fun ewkb => and_congr mapError_eq_ok_iff ?_
  cases T.geomFromEwkb ewkb with
  | none => simp
  | some geom' => simp

/-- The levels of an array of alphas and one of geometries. -/
def GeometryType.levels (T : GeometryType Geom) (raw : List (Alpha F64 × Geom)) :
    List (Level F64 PostgisGeometry) :=
  raw.map fun l => ⟨l.1, T.toPostgis l.2⟩

/-- The geometries behind the bytes of a level list. -/
theorem exists_geoms {levels : List (Level F64 PostgisGeometry)} {geoms : List (Option Geom)}
    (h : (geoms.map fun geom => geom.map T.asEwkb) = geometryElements levels) :
    ∃ raw : List (Alpha F64 × Geom), geoms = raw.map (fun l => some l.2) ∧
      T.levels raw = levels := by
  induction levels generalizing geoms with
  | nil => exact ⟨[], List.map_eq_nil_iff.mp h, rfl⟩
  | cons level levels ih =>
    obtain ⟨geom, rest, rfl, hgeom, hrest⟩ := List.map_eq_cons_iff.mp h
    obtain ⟨raw, rfl, rfl⟩ := ih hrest
    obtain ⟨geom, rfl, hewkb⟩ := Option.map_eq_some_iff.mp hgeom
    refine ⟨(level.alpha, geom) :: raw, rfl, ?_⟩
    obtain ⟨alpha, ewkb, hne⟩ := level
    obtain rfl : T.asEwkb geom = ewkb := hewkb
    rfl

/-- A constructed region is that of the geometries of the array. -/
theorem exists_levels_of_fromGeoms {engine : PostgisEngine P S}
    {alphas : Option (List (Option F64))} {geoms : Option (List (Option Geom))} {v : SqlFuzzyregion}
    (h : fuzzyregionFromGeoms T engine alphas geoms = .ok (some v)) :
    ∃ raw : List (Alpha F64 × Geom), alphas = some (raw.map fun l => some l.1.value) ∧
      geoms.getD [] = raw.map (fun l => some l.2) ∧
      fuzzyregionFromEwkb engine (alphaElements (T.levels raw)) (geometryElements (T.levels raw)) =
        .ok v := by
  obtain ⟨alphas, rfl, hrun⟩ := strict_eq_ok_some_iff.mp h
  obtain ⟨levels, rfl, hgeoms, -⟩ := exists_elements_of_fromEwkb hrun
  rw [hgeoms] at hrun
  obtain ⟨raw, hraw, rfl⟩ := exists_geoms hgeoms
  refine ⟨raw, ?_, hraw, hrun⟩
  rw [alphaElements, GeometryType.levels, List.map_map]
  rfl

end

/-! ## Queries -/

section

variable {T : GeometryType Geom} {e : PointSetEngine PostgisGeometry PostgisPoint}
  {f : PointFunctions} {f64 : F64Text} {raw : List (Alpha F64 × Geom)} {v : SqlFuzzyregion}

/-- The grade of a point is the highest alpha of a geometry that covers it. -/
theorem degreeValue_of_isMaximum {p : PostgisPoint} {m : Option (Alpha F64)}
    (hmax : IsMaximum
      {t | ∃ l ∈ raw, l.1 = t ∧ e.containsPoint (T.toPostgis l.2) p = true} m) :
    degreeValue ((FuzzySet.ofStack (e.stack (T.levels raw))).grade p) =
      m.elim Scalar.zero Alpha.value := by
  have hlevels : IsMaximum {t | ∃ l ∈ T.levels raw, l.alpha = t ∧ p ∈ e.points l.geometry} m := by
    simpa only [GeometryType.levels, List.mem_map, exists_exists_and_eq_and,
      e.containsPoint_iff] using hmax
  rw [FuzzySet.ofStack_grade, grade_stack_of_isMaximum hlevels]
  cases m <;> rfl

/-- A grade reaches a bound when the alpha of some geometry around the point does. -/
theorem exists_grade_levels_iff {p : PostgisPoint} {b : ℚ} :
    (∃ a : Alpha F64, (FuzzySet.ofStack (e.stack (T.levels raw))).grade p = a ∧ b ≤ a.toRat) ↔
      ∃ l ∈ raw, b ≤ l.1.toRat ∧ e.containsPoint (T.toPostgis l.2) p = true := by
  rw [FuzzySet.ofStack_grade, ← exists_covering_iff fun hab hb => hb.trans (Alpha.le_def.mp hab)]
  simp only [RegularizedEngine.stack, GeometryType.levels, List.mem_map, exists_exists_and_eq_and,
    e.containsPoint_iff]

variable (T e f f64 raw v) in
/-- The queries of a region answer from the geometries that it is built from. -/
structure AnswersFrom (spi : Spi S) : Prop where
  /-- A point in the reference system has the highest alpha of a geometry that covers it. -/
  membership : ∀ (p : Geom) (m : Option (Alpha F64)), f.isPoint (T.toPoint p) = true →
    (∀ l ∈ raw, e.srid (T.toPostgis l.2) = f.pointSrid (T.toPoint p)) →
    IsMaximum {t | ∃ l ∈ raw, l.1 = t ∧ e.containsPoint (T.toPostgis l.2) (T.toPoint p) = true} m →
    EndsAs (CallFailure Unanswered)
      (fuzzyregionMembershipAt T (postgisBackend spi) f64 (some v) (some p))
      (.ok (some (m.elim Scalar.zero Alpha.value)))
  /-- A point in another reference system is refused. -/
  mismatch : ∀ p : Geom, f.isPoint (T.toPoint p) = true →
    ∀ l ∈ raw, e.srid (T.toPostgis l.2) ≠ f.pointSrid (T.toPoint p) →
    EndsAs (CallFailure Unanswered)
      (fuzzyregionMembershipAt T (postgisBackend spi) f64 (some v) (some p))
      (.error (.pointSridMismatch (e.srid (T.toPostgis l.2)) (f.pointSrid (T.toPoint p))))
  /-- A cut covers what the geometries do whose alpha reaches its bound. -/
  cut : ∀ (cut : SqlCut) (geom : Geom),
    cut.project T (postgisBackend spi) (some v) = .ok (some geom) →
    ∀ p, e.containsPoint (T.toPostgis geom) p = true ↔
      ∃ l ∈ raw, cut.bound.toRat ≤ l.1.toRat ∧ e.containsPoint (T.toPostgis l.2) p = true
  /-- The bounding box covers all geometries. -/
  bbox : ∀ geom : Geom,
    fuzzyregionBbox T (postgisBackend spi) f64 (some v) = .ok (some geom) →
    ∀ l ∈ raw, ∀ p, e.containsPoint (T.toPostgis l.2) p = true →
      e.containsPoint (T.toPostgis geom) p = true

/-- The geometry that a cut returns. -/
theorem SqlCut.covers_of_project (hT : T.Faithful e.toCrispEngine)
    (hempty : ∀ s, e.points (f.emptyMultipolygon s) = ∅) {spi : Spi S}
    (hspi : spi.Computes e.toCrispEngine f) {d : DomainFuzzyregion}
    (hd : v.toDomain f64 (e.engine (PostgisError S)) = .ok d) {cut : SqlCut} {geom : Geom}
    (h : cut.project T (postgisBackend spi) (some v) = .ok (some geom)) (p : PostgisPoint) :
    e.containsPoint (T.toPostgis geom) p = true ↔
      ∃ a : Alpha F64, (v.meaning e).grade p = a ∧ cut.bound.toRat ≤ a.toRat := by
  rw [cut.project_some, map_eq_ok_iff] at h
  obtain ⟨_, hread, ⟨⟩⟩ := h
  obtain ⟨ewkb, hrun, hgeom⟩ := GeometryType.read_eq_ok_iff.mp hread
  have hideal := (cut.run_endsAs (.of_computes hspi) v).eq_of_ok hrun
  obtain ⟨g, rfl, hpoints⟩ := cut.points_of_run hempty hd hideal
  -- reading the bytes keeps the points
  rw [hT g geom hgeom, e.containsPoint_iff, hpoints]

/-- The geometry that the bounding box returns. -/
theorem covers_of_fuzzyregionBbox (hT : T.Faithful e.toCrispEngine)
    (hbox : ∀ g, e.points g ⊆ e.points (e.boundingBox g)) {spi : Spi S}
    (hspi : spi.Computes e.toCrispEngine f) {geom : Geom}
    (h : fuzzyregionBbox T (postgisBackend spi) f64 (some v) = .ok (some geom)) {p : PostgisPoint}
    {a : Alpha F64} (ha : (v.meaning e).grade p = a) :
    e.containsPoint (T.toPostgis geom) p = true := by
  obtain ⟨_, ⟨⟩, hread⟩ := strict_eq_ok_some_iff.mp h
  obtain ⟨ewkb, hrun, hgeom⟩ := GeometryType.read_eq_ok_iff.mp hread
  have hideal := (fuzzyregionBboxEwkb_endsAs (.of_computes hspi) f64 v).eq_of_ok hrun
  obtain ⟨d, hd, rfl⟩ := fuzzyregionBboxEwkb_eq_ok_iff.mp hideal
  rw [hT _ geom hgeom, e.containsPoint_iff]
  -- the point is in the support, which is not missing then
  have hsupport : p ∈ e.covered (d.alphaCut ⟨Scalar.zero, rfl, rfl⟩) := by
    rw [(canonical_of_toDomain hd).mem_alphaCut_iff, ← meaning_grade, meaning_of_toDomain hd]
    exact ⟨a, ha, F64.toRat_zero.trans_le a.toRat_pos.le⟩
  obtain ⟨g, hg, hp⟩ := hsupport
  have hcut : d.support = some g := hg
  rw [hcut]
  exact hbox g hp

/-- Geometries that are given by their bytes. -/
def siteGeometries : GeometryType PostgisGeometry where
  asEwkb := PostgisGeometry.ewkb
  geomFromEwkb := geometryOf
  asEwkb_ne_nil := PostgisGeometry.nonEmpty

theorem siteGeometries_faithful : siteGeometries.Faithful siteEngine.toCrispEngine := by
  intro g geom hgeom p
  obtain rfl : g = geom := Option.some.inj ((geometryOf_ewkb g).symm.trans hgeom)
  rfl

/-- Two cells, of which `pond` is the first one. -/
def marsh : PostgisGeometry := .zoned 1 [5, 6]

def pond : PostgisGeometry := .zoned 1 [5]

/-- The constructor on the two geometries, computed without the database. -/
theorem exists_fromEwkb_marsh : ∃ v : SqlFuzzyregion,
    fuzzyregionFromEwkb (postgisBackend (siteDatabase Unit)).engine
      [some (F64.ofRat false (1 / 2)), some F64.one] [some marsh.ewkb, some pond.ewkb] = .ok v := by
  have hideal : (fuzzyregionFromEwkb (siteEngine.engine (PostgisError Unit))
      [some (F64.ofRat false (1 / 2)), some F64.one] [some marsh.ewkb, some pond.ewkb]).isOk =
        true := by
    decide +kernel
  rw [(fuzzyregionFromEwkb_endsAs (BackendAnswers.of_failsAs (S := Unit) siteDatabase_computes
    siteDatabase_reliable).engine _ _).eq_of_never fun _ => ApiFailure.not_never]
  cases hrun : fuzzyregionFromEwkb (siteEngine.engine (PostgisError Unit))
      [some (F64.ofRat false (1 / 2)), some F64.one] [some marsh.ewkb, some pond.ewkb] with
  | error error =>
    rw [hrun] at hideal
    cases hideal
  | ok v => exact ⟨v, rfl⟩

end

end FuzzyRegion
