import FuzzyRegion.Pg.Constructor
import FuzzyRegion.Pg.Queries
import FuzzyRegion.Pg.Restore

/-!
# JSON exports

Two functions export a value as JSON. The levels of the payload are written with their bytes, so
that nothing is lost, and the constructor makes of them what a restored dump is. The human-readable
export decodes the payload and asks the backend for the text of every geometry; on payloads of the
invariants it shows the stored levels and their statistics, and the SRID unless there are no levels.

## Main definitions

* `Json`: JSON values
* `levelsJson`, `humanReadableJson`: the exports
* `rebuild`: the constructor on the exported levels

## Main results

* `levelsJson_injective`: the first export determines the payload
* `rebuild_of_export`: the constructor and a restored dump return the same values
* `exports_agree`: the second one shows what the payload stores
-/

namespace FuzzyRegion

open Numeric Fallible Fuzzyregion SqlFuzzyregion

variable {S : Type}

/-- A JSON value; the fields of an object are in the order in which they are written. -/
inductive Json where
  | null
  | bool (value : Bool)
  | int (value : Int)
  | float (value : F64)
  | string (text : List Char)
  | array (items : List Json)
  | object (fields : List (String × Json))

namespace Json

/-- A number that is not finite becomes `null`. -/
def ofFloat (value : F64) : Json := if value.isFinite then .float value else .null

def ofOption {α : Type} (write : α → Json) (value : Option α) : Json := value.elim .null write

theorem ofOption_map {α β : Type} (write : β → Json) (f : α → β) (value : Option α) :
    ofOption write (value.map f) = ofOption (fun a => write (f a)) value := by
  cases value <;> rfl

theorem ofFloat_alpha (a : Alpha F64) : ofFloat a.value = .float a.value := if_pos a.finite

end Json

/-! ## The exports -/

def levelJson (level : StoredLevel) : Json :=
  .object [("alpha", .ofFloat level.alpha.value),
    ("geometry_ewkb", .string (encodeHex level.geometryEwkb))]

def levelsJson (fr : SqlFuzzyregion) : Json :=
  .object [("version", .int fr.stored.version.asU8.toNat),
    ("srid", .ofOption (fun srid : Int32 => .int srid.toInt) fr.stored.srid),
    ("is_empty", .bool fr.stored.levels.isEmpty),
    ("num_levels", .int fr.stored.levels.length),
    ("levels", .array (fr.stored.levels.map levelJson))]

section

variable (backend : PostgisBackend S) (f64 : F64Text)

/-- A level of the human-readable export. -/
def readableLevelJson (level : Level F64 PostgisGeometry) : Except (CallError S) Json := do
  let ewkt ← (backend.geometryToEwkt level.geometry).mapError CallError.postgis
  return .object [("alpha", .ofFloat level.alpha.value), ("geometry_ewkt", .string ewkt)]

def humanReadableJson (fr : SqlFuzzyregion) : Except (CallError S) Json := do
  let domain ← (fr.toDomain f64 backend.engine).mapError CallError.postgis
  let levels ← domain.levels.mapM (readableLevelJson backend)
  return .object [("version", .int fr.stored.version.asU8.toNat),
    ("srid", .ofOption (fun srid : Int32 => .int srid.toInt) domain.srid),
    ("is_empty", .bool domain.isEmpty),
    ("num_levels", .int domain.levels.length),
    ("min_alpha", .ofOption (fun alpha : Alpha F64 => .ofFloat alpha.value) domain.minAlpha),
    ("max_alpha", .ofOption (fun alpha : Alpha F64 => .ofFloat alpha.value) domain.maxAlpha),
    ("levels", .array levels)]

end

/-! ## Lossless -/

theorem levelJson_injective : Function.Injective levelJson := by
  intro level level' h
  obtain ⟨alpha, ewkb, _, _⟩ := level
  obtain ⟨alpha', ewkb', _, _⟩ := level'
  simp only [levelJson, Json.ofFloat_alpha, Json.object.injEq, List.cons.injEq, Prod.mk.injEq,
    Json.float.injEq, Json.string.injEq, true_and, and_true] at h
  obtain ⟨halpha, hhex⟩ := h
  obtain rfl : alpha = alpha' := Alpha.ext_value halpha
  -- the bytes are read back from the digits
  have hbytes := decodeHex_encodeHex ewkb
  rw [hhex, decodeHex_encodeHex] at hbytes
  obtain rfl := Except.ok.inj hbytes
  rfl

/-- The levels and the SRID are in the export. -/
theorem levelsJson_injective : Function.Injective levelsJson := by
  intro fr fr' h
  obtain ⟨⟨⟨⟩, srid, levels, _⟩⟩ := fr
  obtain ⟨⟨⟨⟩, srid', levels', _⟩⟩ := fr'
  simp only [levelsJson, Json.object.injEq, List.cons.injEq, Prod.mk.injEq, Json.array.injEq,
    true_and, and_true] at h
  obtain ⟨hsrid, -, -, hlevels⟩ := h
  obtain rfl : levels = levels' := List.map_injective_iff.mpr levelJson_injective hlevels
  obtain rfl : srid = srid' := by
    cases srid <;> cases srid' <;> simp_all [Json.ofOption, Int32.toInt_inj]
  rfl

/-! ## Rebuilt levels -/

/-- The exported levels, given to the constructor. -/
def rebuild {P : Type} (engine : PostgisEngine P S) (v : SqlFuzzyregion) :
    Except (ApiError S) SqlFuzzyregion :=
  fuzzyregionFromEwkb engine (alphaElements v.stored.region.levels)
    (geometryElements v.stored.region.levels)

/-- A dump and the constructor both canonicalize the levels of the payload. -/
theorem rebuild_eq_ok_iff {P : Type} {engine : PostgisEngine P S} (f64 : F64Text)
    {v w : SqlFuzzyregion} :
    rebuild engine v = .ok w ↔ restore f64 engine v = .ok w := by
  rw [rebuild, fuzzyregionFromEwkb_elements, restore_eq_ok_iff]
  simp only [bind_eq_ok_iff, mapError_eq_ok_iff, fromDomain_eq_ok_iff, toDomain_eq_ok_iff,
    decode_eq_canonicalize, fromLevels]

/-- What a payload stores, with the texts of its geometries. -/
def storedJson (f : PointFunctions) (fr : SqlFuzzyregion) : Json :=
  .object [("version", .int fr.stored.version.asU8.toNat),
    ("srid", .ofOption (fun srid : Int32 => .int srid.toInt) (keptSrid fr)),
    ("is_empty", .bool fr.stored.levels.isEmpty),
    ("num_levels", .int fr.stored.levels.length),
    ("min_alpha", .ofOption .ofFloat (fuzzyregionMinAlpha fr)),
    ("max_alpha", .ofOption .ofFloat (fuzzyregionMaxAlpha fr)),
    ("levels", .array (fr.stored.region.levels.map fun l =>
      .object [("alpha", .ofFloat l.alpha.value),
        ("geometry_ewkt", .string (f.ewkt l.geometry))]))]

section

variable {failed : PostgisError S → Prop} {backend : PostgisBackend S}
  {c : CrispEngine PostgisGeometry PostgisPoint} {f : PointFunctions}

theorem humanReadableJson_endsAs (h : BackendAnswers failed backend c f) (f64 : F64Text)
    (fr : SqlFuzzyregion) :
    EndsAs (CallFailure failed) (humanReadableJson backend f64 fr)
      (humanReadableJson (idealBackend S c f) f64 fr) := by
  refine (readDomain_endsAs h f64 fr).bind fun domain => ?_
  refine EndsAs.bind (EndsAs.mapM (fun level => ?_) domain.levels) fun levels => .refl _
  exact (query_call_endsAs (h.geometryToEwkt level.geometry)).bind fun ewkt => .refl _

/-- The backend writes the text of every geometry. -/
theorem mapM_readableLevelJson (levels : List (Level F64 PostgisGeometry)) :
    levels.mapM (readableLevelJson (idealBackend S c f)) = .ok (levels.map fun l =>
      .object [("alpha", .ofFloat l.alpha.value), ("geometry_ewkt", .string (f.ewkt l.geometry))]) :=
  mapM_eq_ok_iff.mpr (List.forall₂_map_right_iff.mpr (List.forall₂_same.mpr fun _ _ => rfl))

end

section

variable {e : RegularizedEngine PostgisGeometry PostgisPoint} {f : PointFunctions} {f64 : F64Text}
  {fr : SqlFuzzyregion}

/-- The fields of the human-readable export are those of the payload, when the levels are. -/
theorem readableFields_of_levels {d : DomainFuzzyregion}
    (hlevels : d.levels = fr.stored.region.levels) :
    d.isEmpty = fr.stored.levels.isEmpty ∧ d.levels.length = fr.stored.levels.length ∧
      d.minAlpha.map Alpha.value = fuzzyregionMinAlpha fr ∧
      d.maxAlpha.map Alpha.value = fuzzyregionMaxAlpha fr := by
  refine ⟨?_, ?_, ?_, ?_⟩
  · rw [Fuzzyregion.isEmpty, hlevels, StoredFuzzyregion.region, List.isEmpty_map]
  · rw [hlevels, StoredFuzzyregion.region, List.length_map]
  · rw [minAlpha, hlevels, StoredFuzzyregion.region, List.getLast?_map, Option.map_map,
      Option.map_map]
    rfl
  · rw [maxAlpha, hlevels, StoredFuzzyregion.region, List.head?_map, Option.map_map, Option.map_map]
    rfl

/-- **The exports of a payload of the invariants agree**: the human-readable one has the levels, the
alphas and the statistics that are read off the payload, and its SRID unless there are no levels. -/
theorem exports_agree
    (hidem : ∀ g, e.normalizeMultipolygon (e.normalizeMultipolygon g) = e.normalizeMultipolygon g)
    (hfr : Canonical (e.engine (PostgisError S)) fr.stored.region) {spi : Spi S}
    (hspi : spi.Computes e.toCrispEngine f) :
    EndsAs (CallFailure Unanswered) (humanReadableJson (postgisBackend spi) f64 fr)
      (.ok (storedJson f fr)) := by
  obtain ⟨d, hd, -, hsrid⟩ := exists_toDomain f64 hfr
  have hlevels : d.levels = fr.stored.region.levels :=
    levels_of_stores (normalizeIdempotent_engine hidem) hfr (stores_region fr.stored)
      (toDomain_eq_ok_iff.mp hd)
  obtain ⟨hempty, hcount, hmin, hmax⟩ := readableFields_of_levels hlevels
  have hideal : fr.toDomain f64 (idealBackend S e.toCrispEngine f).engine = .ok d := hd
  have hjson : humanReadableJson (idealBackend S e.toCrispEngine f) f64 fr =
      .ok (storedJson f fr) := by
    rw [humanReadableJson, hideal, mapError_ok, ok_bind, mapM_readableLevelJson, ok_bind, hsrid,
      hempty, hcount, hlevels, storedJson, ← hmin, ← hmax, Json.ofOption_map, Json.ofOption_map]
    rfl
  exact hjson ▸ humanReadableJson_endsAs (.of_computes hspi) f64 fr

theorem exports_agree_declaring :
    EndsAs (CallFailure Unanswered)
      (humanReadableJson (postgisBackend (siteDatabase Unit)) bitsText ⟨declaring 1⟩)
      (.ok (.object [("version", .int 1), ("srid", .int 1), ("is_empty", .bool false),
        ("num_levels", .int 1), ("min_alpha", .float F64.one), ("max_alpha", .float F64.one),
        ("levels", .array [.object [("alpha", .float F64.one),
          ("geometry_ewkt", .string "0105".toList)]])])) :=
  exports_agree (e := siteEngine.toRegularizedEngine) site_normalize_idem
    SqlExpr.canonical_declaring siteDatabase_computes

end

end FuzzyRegion
