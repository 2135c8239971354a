import FuzzyRegion.Core.Engine
import FuzzyRegion.Data.Fallible
import Mathlib.Data.List.Destutter
import Mathlib.Data.List.Sort

/-!
# Fuzzyregion values

The canonical value type and its operations, as the source computes them: canonicalization of raw
levels, the crisp projections, the membership lookup and the three standard set operations.

## Main definitions

* `Fuzzyregion.canonicalize`: normalize, sort, validate and collapse a raw level list
* `Fuzzyregion.alphaCut`, `Fuzzyregion.strictAlphaCut`, `Fuzzyregion.membershipAt`
* `Fuzzyregion.union`, `Fuzzyregion.intersection`, `Fuzzyregion.difference`
-/

namespace FuzzyRegion

open Fallible

section

variable {F G P E : Type} [Scalar F]

/-- A fuzzyregion value that has not yet been canonicalized. -/
structure UncheckedFuzzyregion (F G : Type) [Scalar F] where
  levels : List (Level F G)

/-- A fuzzy region: levels from the highest alpha to the lowest, and the shared SRID. -/
structure Fuzzyregion (F G : Type) [Scalar F] where
  srid : Option Int32
  levels : List (Level F G)
deriving DecidableEq

namespace Fuzzyregion

/-! ## Canonicalization -/

def empty (srid : Option Int32) : Fuzzyregion F G := ⟨srid, []⟩

/-- The first loop of `canonicalize`: normalize every geometry and refuse empty ones. -/
def normalizeLevels (engine : GeometryEngine G P E) (levels : List (Level F G)) :
    CoreResult F E (List (Level F G)) :=
  levels.mapM fun level => do
    let geometry ← (engine.normalizeMultipolygon level.geometry).mapError .geometry
    if ← (engine.isEmpty geometry).mapError .geometry then
      throw (.emptyGeometry level.alpha)
    return ⟨level.alpha, geometry⟩

/-- The comparison of `sort_by`: descending alphas, ties in input order. -/
def sortsBefore (left right : Level F G) : Prop := (right.alpha.cmp left.alpha).isLE

instance : DecidableRel (sortsBefore (F := F) (G := G)) := fun left right =>
  inferInstanceAs (Decidable ((right.alpha.cmp left.alpha).isLE = true))

/-- The stable sort by descending alpha. -/
def sortLevels (levels : List (Level F G)) : List (Level F G) := levels.insertionSort sortsBefore

def checkDuplicateAlphas (levels : List (Level F G)) : CoreResult F E Unit :=
  forM (windows levels) fun pair => do
    if pair.1.alpha.eq pair.2.alpha then
      throw (.duplicateAlpha pair.1.alpha)

def checkSrids (engine : GeometryEngine G P E) (expectedSrid : Int32) (levels : List (Level F G)) :
    CoreResult F E Unit :=
  forM levels fun level => do
    let srid ← (engine.srid level.geometry).mapError .geometry
    if srid != expectedSrid then
      throw (.mixedSrid expectedSrid srid level.alpha)

/-- One step of the collapse: a level with the extent of the last retained one is dropped, which
keeps the highest alpha of a repeated extent. -/
def collapseStep (engine : GeometryEngine G P E) (collapsed : List (Level F G))
    (level : Level F G) : CoreResult F E (List (Level F G)) := do
  let shouldDrop ← match collapsed.getLast? with
    | some previous =>
      (engine.topologicallyEquals previous.geometry level.geometry).mapError .geometry
    | none => pure false
  return if shouldDrop then collapsed else collapsed ++ [level]

def collapseLevels (engine : GeometryEngine G P E) (levels : List (Level F G)) :
    CoreResult F E (List (Level F G)) :=
  levels.foldlM (collapseStep engine) []

def checkNesting (engine : GeometryEngine G P E) (collapsed : List (Level F G)) :
    CoreResult F E Unit :=
  forM (windows collapsed) fun pair => do
    let higher := pair.1
    let lower := pair.2
    let isNested ← (engine.contains lower.geometry higher.geometry).mapError .geometry
    if !isNested then
      throw (.nonNestedLevels higher.alpha lower.alpha)

/-- Canonicalize a raw fuzzyregion. -/
def canonicalize (unchecked : UncheckedFuzzyregion F G) (engine : GeometryEngine G P E) :
    CoreResult F E (Fuzzyregion F G) := do
  let levels ← normalizeLevels engine unchecked.levels
  match sortLevels levels with
  -- without levels there is no SRID either
  | [] => return empty none
  | first :: rest => do
    checkDuplicateAlphas (first :: rest)
    let expectedSrid ← (engine.srid first.geometry).mapError .geometry
    checkSrids engine expectedSrid rest
    let collapsed ← collapseLevels engine (first :: rest)
    checkNesting engine collapsed
    return ⟨some expectedSrid, collapsed⟩

def fromLevels (levels : List (Level F G)) (engine : GeometryEngine G P E) :
    CoreResult F E (Fuzzyregion F G) :=
  canonicalize ⟨levels⟩ engine

/-! ## Projections -/

def isEmpty (self : Fuzzyregion F G) : Bool := self.levels.isEmpty

def maxAlpha (self : Fuzzyregion F G) : Option (Alpha F) := self.levels.head?.map Level.alpha

def minAlpha (self : Fuzzyregion F G) : Option (Alpha F) := self.levels.getLast?.map Level.alpha

def support (self : Fuzzyregion F G) : Option G := self.levels.getLast?.map Level.geometry

def core (self : Fuzzyregion F G) : Option G :=
  (self.levels.find? fun level => level.alpha.isOne).map Level.geometry

/-- The lowest stored level whose alpha is still at or above the threshold. -/
def alphaCut (self : Fuzzyregion F G) (threshold : AlphaThreshold F) : Option G :=
  if threshold.isZero then self.support
  else (self.levels.reverse.find? fun level =>
    Scalar.le threshold.value level.alpha.value).map Level.geometry

/-- The lowest stored level whose alpha is strictly above the threshold. -/
def strictAlphaCut (self : Fuzzyregion F G) (threshold : AlphaThreshold F) : Option G :=
  if threshold.isZero then self.support
  else (self.levels.reverse.find? fun level =>
    Scalar.lt threshold.value level.alpha.value).map Level.geometry

/-- The loop of `membership_at` over the remaining levels. -/
def membershipIn (engine : GeometryEngine G P E) (point : P) :
    List (Level F G) → CoreResult F E (Option (Alpha F))
  | [] => return none
  | level :: levels => do
    if ← (engine.containsPoint level.geometry point).mapError .geometry then
      return some level.alpha
    membershipIn engine point levels

/-- The highest alpha whose geometry covers the point. -/
def membershipAt (self : Fuzzyregion F G) (engine : GeometryEngine G P E) (point : P) :
    CoreResult F E (Option (Alpha F)) :=
  membershipIn engine point self.levels

def bbox (self : Fuzzyregion F G) (engine : GeometryEngine G P E) : CoreResult F E (Option G) :=
  match self.support with
  | some geometry => some <$> (engine.boundingBox geometry).mapError .geometry
  | none => return none

/-! ## Set operations -/

/-- `Vec::dedup`: drop every element equal to the one kept before it. -/
def dedup (alphas : List (Alpha F)) : List (Alpha F) := alphas.destutter fun a b => ¬ a.eq b

/-- The alphas of both operands, from the highest to the lowest, each once. -/
def alphaDomain (self other : Fuzzyregion F G) : List (Alpha F) :=
  dedup ((self.levels.map Level.alpha ++ other.levels.map Level.alpha).insertionSort
    fun left right => (right.cmp left).isLE)

def ensureCompatibleSrid (self other : Fuzzyregion F G) : CoreResult F E Unit :=
  match self.srid, other.srid with
  | some left, some right => if left != right then throw (.mixedOperandSrid left right) else pure ()
  | _, _ => pure ()

/-- Push the normalized geometry of an alpha, unless there is none or it is empty. -/
def pushNonEmptyLevel (alpha : Alpha F) (geometry : Option G) (engine : GeometryEngine G P E)
    (levels : List (Level F G)) : CoreResult F E (List (Level F G)) :=
  match geometry with
  | none => return levels
  | some geometry => do
    let geometry ← (engine.normalizeMultipolygon geometry).mapError .geometry
    let isEmpty ← (engine.isEmpty geometry).mapError .geometry
    return if isEmpty then levels else levels ++ [⟨alpha, geometry⟩]

def finishSetOperation (self : Fuzzyregion F G) (levels : List (Level F G))
    (otherSrid : Option Int32) (engine : GeometryEngine G P E) :
    CoreResult F E (Fuzzyregion F G) :=
  if levels.isEmpty then return empty (self.srid.or otherSrid) else fromLevels levels engine

/-- A core result inside a call that may panic. -/
def liftCore {α : Type} (result : CoreResult F E α) : Outcome (CoreError F E) α :=
  result.mapError .error

/-- The body shared by the set operations: `combine` gives the geometry of each alpha of the
common domain, and the levels are rebuilt from the non-empty ones. -/
def setOperation (self other : Fuzzyregion F G) (engine : GeometryEngine G P E)
    (combine : Alpha F → Outcome (CoreError F E) (Option G)) :
    Outcome (CoreError F E) (Fuzzyregion F G) := do
  liftCore (self.ensureCompatibleSrid other)
  let levels ← (self.alphaDomain other).foldlM (fun levels alpha => do
    let geometry ← combine alpha
    liftCore (pushNonEmptyLevel alpha geometry engine levels)) []
  liftCore (self.finishSetOperation levels other.srid engine)

end Fuzzyregion

end

namespace Fuzzyregion

variable {F G P E : Type} [LawfulScalar F]

/-- The standard fuzzy union. -/
def union (self other : Fuzzyregion F G) (engine : GeometryEngine G P E) :
    Outcome (CoreError F E) (Fuzzyregion F G) :=
  self.setOperation other engine fun alpha =>
    let threshold := AlphaThreshold.ofAlpha alpha
    match self.alphaCut threshold, other.alphaCut threshold with
    | some left, some right => liftCore (some <$> (engine.union left right).mapError .geometry)
    | some left, none => return some left
    | none, some right => return some right
    | none, none => return none

/-- The standard fuzzy intersection. -/
def intersection (self other : Fuzzyregion F G) (engine : GeometryEngine G P E) :
    Outcome (CoreError F E) (Fuzzyregion F G) :=
  self.setOperation other engine fun alpha =>
    let threshold := AlphaThreshold.ofAlpha alpha
    match self.alphaCut threshold, other.alphaCut threshold with
    | some left, some right =>
      liftCore (some <$> (engine.intersection left right).mapError .geometry)
    | _, _ => return none

/-- The standard fuzzy difference: at alpha `t`, the cut of `self` at `t` without the strict cut of
`other` at `1 - t`. -/
def difference (self other : Fuzzyregion F G) (engine : GeometryEngine G P E) :
    Outcome (CoreError F E) (Fuzzyregion F G) :=
  self.setOperation other engine fun alpha => do
    let threshold := AlphaThreshold.ofAlpha alpha
    let exclusionThreshold ←
      expect "1 - alpha for alpha in (0, 1] must stay within [0, 1]"
        (AlphaThreshold.tryFrom (Scalar.sub Scalar.one alpha.value))
    match self.alphaCut threshold, other.strictAlphaCut exclusionThreshold with
    | some left, some right =>
      liftCore (some <$> (engine.difference left right).mapError .geometry)
    | some left, none => return some left
    | none, _ => return none

end Fuzzyregion

end FuzzyRegion
