import FuzzyRegion.Core.Membership
import FuzzyRegion.Core.SetLaws
import FuzzyRegion.Pg.SqlType

/-!
# The SQL functions

The functions that SQL calls on fuzzyregion values. Each of them rebuilds the domain value from the
stored payload, computes on it, and stores the result again; only the projections and the SRID are
read from the payload itself.

## Main definitions

* `fuzzyregionFromEwkb`: the constructor, from aligned arrays of alphas and geometries
* `fuzzyregionUnion`, `fuzzyregionIntersection`, `fuzzyregionDifference`: the set operations
* `validationErrors`, `fuzzyregionIsValid`: validation
* `SqlReachable`: the values built by the constructor and the set operations

## Main results

* `fromDomain_errorsIn_of_canonical`: the storage refuses a canonical region for its limits only
* `liftApi_fromDomain`: how an SQL function ends
* `binarySetOperation_eq`, `binarySetOperation_eq_ok`: a set operation on values with known domain
  values, and the domain values behind one that returns
* `SqlReachable.exists_canonical`: a reachable value stores a canonical region
-/

namespace FuzzyRegion

open Numeric Fallible SqlFuzzyregion StoredFuzzyregion

/-- Errors returned by the SQL API layer, as far as the functions below return them. -/
inductive ApiError (S : Type) where
  | mismatchedLevelCount (alphas geometries : Nat)
  | nullAlphaElement (index : Nat)
  | nullGeometryElement (index : Nat)
  | invalidAlpha (error : AlphaError F64)
  | core (error : CoreError F64 (PostgisError S))
  | postgis (error : PostgisError S)
deriving DecidableEq

variable {P S : Type}

/-! ## The constructor -/

/-- The level of one element of each array; an element may be `NULL`. -/
def levelOfElements (index : Nat) (alpha : Option F64) (ewkb : Option (List UInt8)) :
    Except (ApiError S) (Level F64 PostgisGeometry) := do
  let alpha ← match alpha with
    | some alpha => .ok alpha
    | none => .error (.nullAlphaElement index)
  let alpha ← (Alpha.tryFrom alpha).mapError ApiError.invalidAlpha
  let ewkb ← match ewkb with
    | some ewkb => .ok ewkb
    | none => .error (.nullGeometryElement index)
  let geometry ← (PostgisGeometry.fromEwkb ewkb).mapError ApiError.postgis
  return ⟨alpha, geometry⟩

def fuzzyregionFromEwkb (engine : PostgisEngine P S) (alphas : List (Option F64))
    (geoms : List (Option (List UInt8))) : Except (ApiError S) SqlFuzzyregion :=
  if alphas.length ≠ geoms.length then
    .error (.mismatchedLevelCount alphas.length geoms.length)
  else do
    let levels ← (alphas.zip geoms).zipIdx.mapM fun ((alpha, ewkb), index) =>
      levelOfElements index alpha ewkb
    let domain ← (Fuzzyregion.fromLevels levels engine).mapError ApiError.core
    (fromDomain domain).mapError .postgis

def fuzzyregionSrid (fr : SqlFuzzyregion) : Option Int32 := fr.srid

/-! ## Set operations -/

/-- An error of a call that may panic, as one of the caller. -/
def Stop.map {ε ε' : Type} (f : ε → ε') : Stop ε → Stop ε'
  | .error e => .error (f e)
  | .panic message => .panic message

/-- A result of the SQL layer inside a call that may panic. -/
def liftApi {α : Type} (result : Except (ApiError S) α) : Outcome (ApiError S) α :=
  result.mapError .error

def binarySetOperation (f64 : F64Text) (engine : PostgisEngine P S) (a b : SqlFuzzyregion)
    (op : DomainFuzzyregion → DomainFuzzyregion → PostgisEngine P S →
      Outcome (CoreError F64 (PostgisError S)) DomainFuzzyregion) :
    Outcome (ApiError S) SqlFuzzyregion := do
  let left ← liftApi ((a.toDomain f64 engine).mapError .postgis)
  let right ← liftApi ((b.toDomain f64 engine).mapError .postgis)
  let result ← (op left right engine).mapError (Stop.map .core)
  liftApi ((fromDomain result).mapError .postgis)

def fuzzyregionUnion (f64 : F64Text) (engine : PostgisEngine P S) (a b : SqlFuzzyregion) :
    Outcome (ApiError S) SqlFuzzyregion :=
  binarySetOperation f64 engine a b Fuzzyregion.union

def fuzzyregionIntersection (f64 : F64Text) (engine : PostgisEngine P S) (a b : SqlFuzzyregion) :
    Outcome (ApiError S) SqlFuzzyregion :=
  binarySetOperation f64 engine a b Fuzzyregion.intersection

def fuzzyregionDifference (f64 : F64Text) (engine : PostgisEngine P S) (a b : SqlFuzzyregion) :
    Outcome (ApiError S) SqlFuzzyregion :=
  binarySetOperation f64 engine a b Fuzzyregion.difference

/-- Run a set operation on SQL values. -/
def SetOp.runSql (op : SetOp) (f64 : F64Text) (engine : PostgisEngine P S) (a b : SqlFuzzyregion) :
    Outcome (ApiError S) SqlFuzzyregion :=
  match op with
  | .union => fuzzyregionUnion f64 engine a b
  | .intersection => fuzzyregionIntersection f64 engine a b
  | .difference => fuzzyregionDifference f64 engine a b

/-! ## Validation -/

/-- The texts of the errors that a `PostgisError` wraps. -/
structure WrappedTexts (S : Type) where
  storage : StorageError → List Char
  spi : S → List Char

/-- `Display for PostgisError`. -/
def displayPostgisError (texts : WrappedTexts S) : PostgisError S → List Char
  | .emptyGeometryBytes => "geometry EWKB bytes must not be empty".toList
  | .emptyPointBytes => "point EWKB bytes must not be empty".toList
  | .invalidPointGeometry => "point input must be a non-empty POINT geometry".toList
  | .corruptStoredValue message => message
  | .nullResult context => "PostGIS returned NULL while ".toList ++ context.toList
  | .storage error => texts.storage error
  | .spi error => texts.spi error

/-- The text of the error that keeps a value from being decoded, if one does. -/
def validationErrors (f64 : F64Text) (texts : WrappedTexts S) (engine : PostgisEngine P S)
    (fr : SqlFuzzyregion) : List (List Char) :=
  match fr.toDomain f64 engine with
  | .ok _ => []
  | .error error => [displayPostgisError texts error]

def fuzzyregionIsValid (f64 : F64Text) (texts : WrappedTexts S) (engine : PostgisEngine P S)
    (fr : SqlFuzzyregion) : Bool :=
  (validationErrors f64 texts engine fr).isEmpty

def fuzzyregionValidate (f64 : F64Text) (texts : WrappedTexts S) (engine : PostgisEngine P S)
    (fr : SqlFuzzyregion) : List (List Char) :=
  validationErrors f64 texts engine fr

/-! ## Calls -/

section

variable {f64 : F64Text} {engine : PostgisEngine P S} {a b v : SqlFuzzyregion}

theorem toDomain_eq_ok_iff {d : DomainFuzzyregion} :
    a.toDomain f64 engine = .ok d ↔ decodeStoredFuzzyregion a.stored engine = .ok d :=
  mapError_eq_ok_iff

theorem fromDomain_eq_ok_iff {d : DomainFuzzyregion} :
    fromDomain d = (.ok v : Except (PostgisError S) _) ↔ Stores d v.stored := by
  rw [fromDomain, map_eq_ok_iff]
  constructor
  · rintro ⟨stored, hstored, rfl⟩
    exact encodeDomainFuzzyregion_eq_ok_iff.mp hstored
  · intro hstores
    exact ⟨v.stored, encodeDomainFuzzyregion_eq_ok_iff.mpr hstores, rfl⟩

/-! ## Storing results -/

/-- The storage refuses a region whose alphas do not ascend for its limits, or because two of the
alphas are equal. -/
theorem fromDomain_errorsIn {d : DomainFuzzyregion} (hsrid : d.levels ≠ [] → d.srid ≠ none)
    (hle : d.levels.Pairwise fun higher lower => lower.alpha ≤ higher.alpha) :
    ErrorsIn (fun error => ∃ e, error = .storage e ∧ (ExceedsLimit e ∨
        (∃ a, e = .duplicateAlpha a) ∧
          ¬ d.levels.Pairwise fun higher lower => lower.alpha < higher.alpha))
      (fromDomain d : Except (PostgisError S) SqlFuzzyregion) := by
  refine ErrorsIn.map ((encodeDomainFuzzyregion_errorsIn d).mono ?_) _
  rintro _ ⟨e, rfl, hrefused⟩
  refine ⟨e, rfl, ?_⟩
  cases hrefused with
  | limit hlimit _ => exact Or.inl hlimit
  | missingSrid hne hnone => exact absurd hnone (hsrid hne)
  | duplicate hnot => exact Or.inr ⟨⟨_, rfl⟩, hnot⟩
  | outOfOrder hascent => exact absurd hle hascent

/-- The storage refuses a canonical region for its limits only. -/
theorem fromDomain_errorsIn_of_canonical {d : DomainFuzzyregion}
    (hd : Fuzzyregion.Canonical engine d) :
    ErrorsIn (fun error => ∃ e, error = .storage e ∧ ExceedsLimit e)
      (fromDomain d : Except (PostgisError S) SqlFuzzyregion) := by
  refine (fromDomain_errorsIn hd.srid_ne_none (hd.descending.imp le_of_lt)).mono ?_
  rintro _ ⟨e, rfl, he | ⟨-, hnot⟩⟩
  · exact ⟨e, rfl, he⟩
  · exact absurd hd.descending hnot

/-- A canonical region is stored, or exceeds a limit of the storage. -/
theorem exists_fromDomain_or_limit {d : DomainFuzzyregion}
    (hd : Fuzzyregion.Canonical engine d) :
    (∃ v, fromDomain d = (.ok v : Except (PostgisError S) _)) ∨
    ∃ limit, ExceedsLimit limit ∧ fromDomain (S := S) d = .error (.storage limit) := by
  cases hrun : fromDomain (S := S) d with
  | ok v => exact Or.inl ⟨v, rfl⟩
  | error error =>
    obtain ⟨limit, rfl, hlimit⟩ := fromDomain_errorsIn_of_canonical hd error hrun
    exact Or.inr ⟨limit, hlimit, rfl⟩

/-- A call that fails to store a canonical region tells the limit. -/
theorem exists_limit_of_fromDomain {ε : Type} {d : DomainFuzzyregion}
    {wrap : PostgisError S → ε} {error : ε} (hd : Fuzzyregion.Canonical engine d)
    (h : (fromDomain d).mapError wrap = .error error) :
    ∃ limit, ExceedsLimit limit ∧ error = wrap (.storage limit) := by
  obtain ⟨e, he, rfl⟩ := mapError_eq_error_iff.mp h
  obtain ⟨limit, rfl, hlimit⟩ := fromDomain_errorsIn_of_canonical hd e he
  exact ⟨limit, hlimit, rfl⟩

/-- The last step of an SQL function stores a canonical result, or the result exceeds a limit of the
storage. -/
theorem liftApi_fromDomain {d : DomainFuzzyregion} (hd : Fuzzyregion.Canonical engine d) :
    (∃ v, liftApi ((fromDomain d).mapError ApiError.postgis) =
        (.ok v : Outcome (ApiError S) SqlFuzzyregion) ∧ Stores d v.stored) ∨
    ∃ limit, ExceedsLimit limit ∧ liftApi ((fromDomain d).mapError ApiError.postgis) =
      (.error (.error (.postgis (.storage limit))) : Outcome (ApiError S) SqlFuzzyregion) := by
  rcases exists_fromDomain_or_limit hd with ⟨v, hv⟩ | ⟨limit, hlimit, hrun⟩
  · exact Or.inl ⟨v, by rw [hv]; rfl, fromDomain_eq_ok_iff.mp hv⟩
  · exact Or.inr ⟨limit, hlimit, by rw [hrun]; rfl⟩

/-! ## Set operations -/

theorem SetOp.runSql_eq (op : SetOp) (f64 : F64Text) (engine : PostgisEngine P S)
    (a b : SqlFuzzyregion) :
    op.runSql f64 engine a b = binarySetOperation f64 engine a b op.run := by
  cases op <;> rfl

/-- A set operation on values with known domain values. -/
theorem binarySetOperation_eq {left right : DomainFuzzyregion}
    {op : DomainFuzzyregion → DomainFuzzyregion → PostgisEngine P S →
      Outcome (CoreError F64 (PostgisError S)) DomainFuzzyregion}
    (ha : decodeStoredFuzzyregion a.stored engine = .ok left)
    (hb : decodeStoredFuzzyregion b.stored engine = .ok right) :
    binarySetOperation f64 engine a b op = (op left right engine).mapError (Stop.map .core) >>=
      fun result => liftApi ((fromDomain result).mapError .postgis) := by
  rw [binarySetOperation, toDomain_eq_ok_iff.mpr ha, toDomain_eq_ok_iff.mpr hb]
  rfl

/-- The domain values behind a set operation that returns. -/
theorem binarySetOperation_eq_ok
    {op : DomainFuzzyregion → DomainFuzzyregion → PostgisEngine P S →
      Outcome (CoreError F64 (PostgisError S)) DomainFuzzyregion}
    (h : binarySetOperation f64 engine a b op = .ok v) :
    ∃ left right result, op left right engine = .ok result ∧ Stores result v.stored := by
  simp only [binarySetOperation, bind_eq_ok_iff, liftApi, mapError_eq_ok_iff,
    fromDomain_eq_ok_iff] at h
  obtain ⟨left, -, right, -, result, hresult, hstores⟩ := h
  exact ⟨left, right, result, hresult, hstores⟩

end

/-! ## Reachable values -/

/-- The values built by the constructor and by the set operations. -/
inductive SqlReachable (f64 : F64Text) (engine : PostgisEngine P S) : SqlFuzzyregion → Prop where
  | fromEwkb {alphas : List (Option F64)} {geoms : List (Option (List UInt8))} {v : SqlFuzzyregion}
      (h : fuzzyregionFromEwkb engine alphas geoms = .ok v) : SqlReachable f64 engine v
  | setOp (op : SetOp) {a b v : SqlFuzzyregion} (ha : SqlReachable f64 engine a)
      (hb : SqlReachable f64 engine b) (h : op.runSql f64 engine a b = .ok v) :
      SqlReachable f64 engine v

/-- Every reachable value stores a canonical region. -/
theorem SqlReachable.exists_canonical {f64 : F64Text} {engine : PostgisEngine P S}
    {v : SqlFuzzyregion} (h : SqlReachable f64 engine v) :
    ∃ d : DomainFuzzyregion, Fuzzyregion.Canonical engine d ∧ Stores d v.stored := by
  cases h with
  | fromEwkb h =>
    unfold fuzzyregionFromEwkb at h
    split_ifs at h
    simp only [bind_eq_ok_iff, mapError_eq_ok_iff, fromDomain_eq_ok_iff] at h
    obtain ⟨levels, -, domain, hdomain, hstores⟩ := h
    exact ⟨domain, Fuzzyregion.canonicalize_canonical hdomain, hstores⟩
  | setOp op ha hb h =>
    rw [SetOp.runSql_eq] at h
    obtain ⟨left, right, result, hresult, hstores⟩ := binarySetOperation_eq_ok h
    exact ⟨result, Fuzzyregion.setOp_canonical hresult, hstores⟩

end FuzzyRegion
