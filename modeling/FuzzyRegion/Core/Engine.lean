import FuzzyRegion.Core.Alpha

/-!
# Geometry engines, levels and errors

The domain model performs no geometry itself: it calls a geometry engine, and every call may fail.
An engine that never fails is given by its total operations, and most of the development is about
such engines.

## Main definitions

* `GeometryEngine`: the crisp operations of a backend, each of which may fail
* `CrispEngine`, `CrispEngine.engine`: total operations, as an engine that never errors
* `Level`, `CoreError`: a stored level, and the errors of the domain operations
* `Stop`, `Outcome`: a call that also may stop at an `expect`
-/

namespace FuzzyRegion

open Numeric

/-- The crisp geometry backend. -/
structure GeometryEngine (Geometry Point Error : Type) where
  normalizeMultipolygon : Geometry → Except Error Geometry
  isEmpty : Geometry → Except Error Bool
  srid : Geometry → Except Error Int32
  topologicallyEquals (left right : Geometry) : Except Error Bool
  /-- Whether `container` covers `containee`, including boundary-only contact. -/
  contains (container containee : Geometry) : Except Error Bool
  containsPoint : Geometry → Point → Except Error Bool
  union (left right : Geometry) : Except Error Geometry
  intersection (left right : Geometry) : Except Error Geometry
  difference (left right : Geometry) : Except Error Geometry
  area : Geometry → Except Error F64
  boundingBox : Geometry → Except Error Geometry

/-- The total operations of an engine that never errors. -/
structure CrispEngine (Geometry Point : Type) where
  normalizeMultipolygon : Geometry → Geometry
  isEmpty : Geometry → Bool
  srid : Geometry → Int32
  topologicallyEquals (left right : Geometry) : Bool
  contains (container containee : Geometry) : Bool
  containsPoint : Geometry → Point → Bool
  union (left right : Geometry) : Geometry
  intersection (left right : Geometry) : Geometry
  difference (left right : Geometry) : Geometry
  area : Geometry → F64
  boundingBox : Geometry → Geometry

variable {G P E : Type}

/-- Total operations as an engine, for any error type. -/
@[simps] def CrispEngine.engine (c : CrispEngine G P) (E : Type) : GeometryEngine G P E where
  normalizeMultipolygon g := .ok (c.normalizeMultipolygon g)
  isEmpty g := .ok (c.isEmpty g)
  srid g := .ok (c.srid g)
  topologicallyEquals left right := .ok (c.topologicallyEquals left right)
  contains container containee := .ok (c.contains container containee)
  containsPoint g p := .ok (c.containsPoint g p)
  union left right := .ok (c.union left right)
  intersection left right := .ok (c.intersection left right)
  difference left right := .ok (c.difference left right)
  area g := .ok (c.area g)
  boundingBox g := .ok (c.boundingBox g)

variable {F : Type} [Scalar F]

/-- A stored membership level: a validated alpha and a crisp geometry. -/
structure Level (F G : Type) [Scalar F] where
  alpha : Alpha F
  geometry : G
deriving DecidableEq

/-- Errors returned by fuzzyregion domain operations. -/
inductive CoreError (F E : Type) [Scalar F] where
  /-- An alpha value was invalid. -/
  | invalidAlpha (error : AlphaError F)
  /-- Two operands with incompatible SRIDs were combined. -/
  | mixedOperandSrid (left right : Int32)
  /-- A level list contained the same alpha more than once. -/
  | duplicateAlpha (alpha : Alpha F)
  /-- A normalized geometry turned out to be empty. -/
  | emptyGeometry (alpha : Alpha F)
  /-- Level geometries did not all share the same SRID. -/
  | mixedSrid (expected found : Int32) (alpha : Alpha F)
  /-- A higher-alpha level was not contained in the next lower-alpha level. -/
  | nonNestedLevels (higher lower : Alpha F)
  /-- The geometry backend returned an error. -/
  | geometry (error : E)
deriving DecidableEq

/-- The result type of the core crate. -/
abbrev CoreResult (F E : Type) [Scalar F] := Except (CoreError F E)

/-- How a call ends without a value: it returns an error, or it panics at an `expect`. -/
inductive Stop (ε : Type) where
  | error (e : ε)
  | panic (message : String)
deriving DecidableEq

/-- A call that may panic. -/
abbrev Outcome (ε : Type) := Except (Stop ε)

/-- `Result::expect`. -/
def expect {ε ε' α : Type} (message : String) : Except ε' α → Outcome ε α
  | .ok a => .ok a
  | .error _ => .error (.panic message)

end FuzzyRegion
