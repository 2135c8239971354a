import FuzzyRegion.Core.Powers
import FuzzyRegion.Pg.Api
import FuzzyRegion.Pg.Spi

/-!
# The other SQL functions

The functions of a single fuzzyregion value: projections, queries at a point, membership transforms
and the statistics of the stored levels. Some of them read the payload, the others decode it first;
a projection that is missing is replaced by an empty geometry of the backend. Between two calls a
value is a datum, which holds the binary body.

## Main definitions

* `projectionOrEmpty`, `fuzzyregionAlphaCutEwkb`: projections
* `fuzzyregionMembershipAtEwkb`: the membership at a point
* `fuzzyregionNormalize`, `PowerTransform.runSql`: the transforms
* `fromDatum`, `intoDatum`: values as datums
-/

namespace FuzzyRegion

open Numeric Fallible SqlFuzzyregion

/-- Errors returned by the SQL API layer. -/
inductive CallError (S : Type) where
  /-- An error that the constructor and the set operations return as well. -/
  | api (error : ApiError S)
  | pointSridMismatch (regionSrid pointSrid : Int32)
  | invalidThreshold (error : AlphaError F64)
  | transform (error : MembershipTransformError F64)
deriving DecidableEq

variable {S : Type}

namespace CallError

def core (error : CoreError F64 (PostgisError S)) : CallError S := .api (.core error)

def postgis (error : PostgisError S) : CallError S := .api (.postgis error)

end CallError

/-! ## Statistics of the stored levels -/

def fuzzyregionMinAlpha (fr : SqlFuzzyregion) : Option F64 :=
  fr.stored.levels.getLast?.map fun level => level.alpha.value

def fuzzyregionMaxAlpha (fr : SqlFuzzyregion) : Option F64 :=
  fr.stored.levels.head?.map fun level => level.alpha.value

/-- The number of stored levels, which has to fit PostgreSQL's integer. -/
def fuzzyregionNumLevels (fr : SqlFuzzyregion) : Outcome Empty Int32 :=
  if fr.stored.levels.length < 2 ^ 31 then .ok (.ofNat fr.stored.levels.length)
  else .error (.panic "fuzzyregion level count exceeds PostgreSQL integer range")

/-! ## Projections -/

section

variable (backend : PostgisBackend S)

def projectionOrEmpty (ewkb : Option (List UInt8)) (srid : Option Int32) :
    Except (CallError S) (List UInt8) :=
  match ewkb with
  | some ewkb => .ok ewkb
  | none => PostgisGeometry.ewkb <$> (backend.emptyMultipolygon srid).mapError .postgis

def fuzzyregionSupportEwkb (fr : SqlFuzzyregion) : Except (CallError S) (List UInt8) :=
  projectionOrEmpty backend fr.supportEwkb fr.srid

def fuzzyregionCoreEwkb (fr : SqlFuzzyregion) : Except (CallError S) (List UInt8) :=
  projectionOrEmpty backend fr.coreEwkb fr.srid

def fuzzyregionAlphaCutEwkb (fr : SqlFuzzyregion) (alpha : F64) :
    Except (CallError S) (List UInt8) := do
  let threshold ← (AlphaThreshold.tryFrom alpha).mapError CallError.invalidThreshold
  projectionOrEmpty backend (fr.alphaCutEwkb threshold) fr.srid

variable (f64 : F64Text)

def fuzzyregionBboxEwkb (fr : SqlFuzzyregion) : Except (CallError S) (List UInt8) := do
  let domain ← (fr.toDomain f64 backend.engine).mapError CallError.postgis
  let bbox ← (domain.bbox backend.engine).mapError CallError.core
  projectionOrEmpty backend (bbox.map PostgisGeometry.ewkb) fr.srid

def fuzzyregionAreaAt (fr : SqlFuzzyregion) (alpha : F64) : Except (CallError S) F64 := do
  let threshold ← (AlphaThreshold.tryFrom alpha).mapError CallError.invalidThreshold
  let domain ← (fr.toDomain f64 backend.engine).mapError CallError.postgis
  match domain.alphaCut threshold with
  | some geometry => (backend.engine.area geometry).mapError .postgis
  | none => .ok Scalar.zero

/-! ## The membership at a point -/

/-- A point has the SRID of the region, unless the region has none. -/
def checkPointSrid (regionSrid : Option Int32) (pointSrid : Int32) : Except (CallError S) Unit :=
  match regionSrid with
  | some regionSrid =>
    if regionSrid != pointSrid then .error (.pointSridMismatch regionSrid pointSrid) else .ok ()
  | none => .ok ()

def fuzzyregionMembershipAtEwkb (fr : SqlFuzzyregion) (point : List UInt8) :
    Except (CallError S) F64 := do
  let point ← (backend.pointFromEwkb point).mapError CallError.postgis
  let pointSrid ← (backend.pointSrid point).mapError CallError.postgis
  checkPointSrid fr.srid pointSrid
  let domain ← (fr.toDomain f64 backend.engine).mapError CallError.postgis
  let membership ← (domain.membershipAt backend.engine point).mapError CallError.core
  return membership.elim Scalar.zero Alpha.value

/-! ## Membership transforms -/

/-- An SQL result inside a call that may panic. -/
def liftCall {α : Type} (result : Except (CallError S) α) : Outcome (CallError S) α :=
  result.mapError .error

def fuzzyregionNormalize (fr : SqlFuzzyregion) : Outcome (CallError S) SqlFuzzyregion := do
  let domain ← liftCall ((fr.toDomain f64 backend.engine).mapError .postgis)
  let normalized ← domain.normalizeMembership
  liftCall ((fromDomain normalized).mapError .postgis)

def unaryMembershipTransform (fr : SqlFuzzyregion) (power : F64)
    (transform : DomainFuzzyregion → F64 →
      Outcome (MembershipTransformError F64) DomainFuzzyregion) :
    Outcome (CallError S) SqlFuzzyregion := do
  let domain ← liftCall ((fr.toDomain f64 backend.engine).mapError .postgis)
  let transformed ← (transform domain power).mapError (Stop.map .transform)
  liftCall ((fromDomain transformed).mapError .postgis)

variable (powf : F64 → F64 → F64)

def fuzzyregionConcentrate (fr : SqlFuzzyregion) (power : F64) :
    Outcome (CallError S) SqlFuzzyregion :=
  unaryMembershipTransform backend f64 fr power (Fuzzyregion.concentrateMembership powf)

def fuzzyregionDilateMembership (fr : SqlFuzzyregion) (power : F64) :
    Outcome (CallError S) SqlFuzzyregion :=
  unaryMembershipTransform backend f64 fr power (Fuzzyregion.dilateMembership powf)

/-- Run a power transform on an SQL value. -/
def PowerTransform.runSql (t : PowerTransform) (fr : SqlFuzzyregion) (power : F64) :
    Outcome (CallError S) SqlFuzzyregion :=
  match t with
  | .concentrate => fuzzyregionConcentrate backend f64 powf fr power
  | .dilate => fuzzyregionDilateMembership backend f64 powf fr power

theorem PowerTransform.runSql_eq (t : PowerTransform) (fr : SqlFuzzyregion) (power : F64) :
    t.runSql backend f64 powf fr power =
      unaryMembershipTransform backend f64 fr power (t.run powf) := by
  cases t <;> rfl

end

/-! ## Datums -/

/-- The content of a varlena datum. -/
abbrev Datum := List UInt8

/-- `IntoDatum::into_datum`. -/
def intoDatum (fr : SqlFuzzyregion) : Datum := fr.stored.encodeBody

/-- `FromDatum::from_polymorphic_datum` of a datum that is not `NULL`. The length of a datum is far
below the size of a word, so that the sums of its reader do not wrap. -/
def fromDatum (datum : Datum) : Except StorageError SqlFuzzyregion :=
  SqlFuzzyregion.mk <$> StoredFuzzyregion.decodeBody id datum

/-- The datums that can be read are those of values. -/
theorem fromDatum_eq_ok_iff {datum : Datum} {fr : SqlFuzzyregion} :
    fromDatum datum = .ok fr ↔ datum = intoDatum fr := by
  simp only [fromDatum, map_eq_ok_iff, StoredFuzzyregion.decodeBody_eq_ok_iff (exactSums_id _)]
  constructor
  · rintro ⟨stored, rfl, rfl⟩
    rfl
  · rintro rfl
    exact ⟨fr.stored, rfl, rfl⟩

/-- A value is read back from its datum. -/
@[simp] theorem fromDatum_intoDatum (fr : SqlFuzzyregion) : fromDatum (intoDatum fr) = .ok fr :=
  fromDatum_eq_ok_iff.mpr rfl

theorem intoDatum_injective : Function.Injective intoDatum := fun fr fr' h =>
  Except.ok.inj ((fromDatum_intoDatum fr).symm.trans (h ▸ fromDatum_intoDatum fr'))

end FuzzyRegion
