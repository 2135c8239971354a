import FuzzyRegion.Core.Reachable
import FuzzyRegion.Data.UpToFailure

/-!
# Backends that may fail

A database may refuse any query. A backend that gives the right answer whenever it gives one is
enough for the operations of the domain model: each of them ends as it would on the operations
themselves, or returns the failure of the backend. No failure is swallowed on the way and none of
them turns into another result.

## Main definitions

* `Answers failed valid engine c`: the backend answers as the operations `c`, or fails; on points,
  as far as these are valid
* `BackendError`, `Stop.IsError`: the errors through which a failure of the backend is returned

## Main results

* `canonicalize_endsAs`, `membershipAt_endsAs`, `bbox_endsAs`, `SetOp.run_endsAs`: one call
* `operations_endAs`: the operations of the domain model
-/

namespace FuzzyRegion

open Fallible

variable {F G P E : Type}

/-- The backend answers as the operations do, unless it fails in the given way. Only valid points
are asked for. -/
structure Answers (failed : E → Prop) (valid : P → Prop) (engine : GeometryEngine G P E)
    (c : CrispEngine G P) : Prop where
  normalizeMultipolygon : ∀ g,
    EndsAs failed (engine.normalizeMultipolygon g) (.ok (c.normalizeMultipolygon g))
  isEmpty : ∀ g, EndsAs failed (engine.isEmpty g) (.ok (c.isEmpty g))
  srid : ∀ g, EndsAs failed (engine.srid g) (.ok (c.srid g))
  topologicallyEquals : ∀ left right,
    EndsAs failed (engine.topologicallyEquals left right) (.ok (c.topologicallyEquals left right))
  contains : ∀ container containee,
    EndsAs failed (engine.contains container containee) (.ok (c.contains container containee))
  containsPoint : ∀ g p, valid p →
    EndsAs failed (engine.containsPoint g p) (.ok (c.containsPoint g p))
  union : ∀ left right, EndsAs failed (engine.union left right) (.ok (c.union left right))
  intersection : ∀ left right,
    EndsAs failed (engine.intersection left right) (.ok (c.intersection left right))
  difference : ∀ left right,
    EndsAs failed (engine.difference left right) (.ok (c.difference left right))
  area : ∀ g, EndsAs failed (engine.area g) (.ok (c.area g))
  boundingBox : ∀ g, EndsAs failed (engine.boundingBox g) (.ok (c.boundingBox g))

/-- Operations that never fail answer as they do. -/
theorem answers_engine (failed : E → Prop) (valid : P → Prop) (c : CrispEngine G P) :
    Answers failed valid (c.engine E) c where
  normalizeMultipolygon _ := .refl _
  isEmpty _ := .refl _
  srid _ := .refl _
  topologicallyEquals _ _ := .refl _
  contains _ _ := .refl _
  containsPoint _ _ _ := .refl _
  union _ _ := .refl _
  intersection _ _ := .refl _
  difference _ _ := .refl _
  area _ := .refl _
  boundingBox _ := .refl _

/-- A failure of the backend, as an error of the core. -/
inductive BackendError [Scalar F] (failed : E → Prop) : CoreError F E → Prop where
  | geometry {error : E} (h : failed error) : BackendError failed (.geometry error)

/-- A call that may panic returns an error of the given kind. -/
inductive Stop.IsError {ε : Type} (failed : ε → Prop) : Stop ε → Prop where
  | error {e : ε} (h : failed e) : Stop.IsError failed (.error e)

section

variable [Scalar F] {failed : E → Prop} {valid : P → Prop} {engine : GeometryEngine G P E}
  {c : CrispEngine G P}

/-- A query, with its failure as an error of the core. -/
theorem query_endsAs {α : Type} {x y : Except E α} (h : EndsAs failed x y) :
    EndsAs (BackendError (F := F) failed) (x.mapError .geometry) (y.mapError .geometry) :=
  h.mapError fun _ => .geometry

theorem liftCore_endsAs {α : Type} {x y : CoreResult F E α} (h : EndsAs (BackendError failed) x y) :
    EndsAs (Stop.IsError (BackendError failed)) (Fuzzyregion.liftCore x)
      (Fuzzyregion.liftCore y) :=
  h.mapError fun _ => .error

namespace Fuzzyregion

/-! ## The passes of `canonicalize` -/

theorem normalizeLevels_endsAs (h : Answers failed valid engine c) (levels : List (Level F G)) :
    EndsAs (BackendError failed) (normalizeLevels engine levels)
      (normalizeLevels (c.engine E) levels) := by
  apply EndsAs.mapM
  intro level
  apply (query_endsAs (h.normalizeMultipolygon _)).bind
  intro geometry
  exact (query_endsAs (h.isEmpty geometry)).bind fun _ => .refl _

theorem checkSrids_endsAs (h : Answers failed valid engine c) (srid : Int32)
    (levels : List (Level F G)) :
    EndsAs (BackendError failed) (checkSrids engine srid levels)
      (checkSrids (c.engine E) srid levels) := by
  apply EndsAs.forM
  intro level
  exact (query_endsAs (h.srid _)).bind fun _ => .refl _

theorem collapseLevels_endsAs (h : Answers failed valid engine c) (levels : List (Level F G)) :
    EndsAs (BackendError failed) (collapseLevels engine levels)
      (collapseLevels (c.engine E) levels) := by
  apply EndsAs.foldlM
  intro collapsed level
  unfold collapseStep
  -- the first level is compared with nothing
  cases collapsed.getLast? with
  | none => exact .refl _
  | some previous => exact (query_endsAs (h.topologicallyEquals _ _)).bind fun _ => .refl _

theorem checkNesting_endsAs (h : Answers failed valid engine c) (levels : List (Level F G)) :
    EndsAs (BackendError failed) (checkNesting engine levels)
      (checkNesting (c.engine E) levels) := by
  apply EndsAs.forM
  intro pair
  exact (query_endsAs (h.contains _ _)).bind fun _ => .refl _

theorem canonicalize_endsAs (h : Answers failed valid engine c) (unchecked : UncheckedFuzzyregion F G) :
    EndsAs (BackendError failed) (canonicalize unchecked engine)
      (canonicalize unchecked (c.engine E)) := by
  apply (normalizeLevels_endsAs h unchecked.levels).bind
  intro levels
  cases sortLevels levels with
  | nil => exact .refl _
  | cons first rest =>
    -- the check of the alphas asks the backend nothing
    refine (EndsAs.refl (checkDuplicateAlphas (first :: rest))).bind fun _ => ?_
    refine (query_endsAs (h.srid first.geometry)).bind fun srid => ?_
    refine (checkSrids_endsAs h srid rest).bind fun _ => ?_
    refine (collapseLevels_endsAs h (first :: rest)).bind fun collapsed => ?_
    exact (checkNesting_endsAs h collapsed).bind fun _ => .refl _

/-! ## Projections -/

theorem membershipIn_endsAs (h : Answers failed valid engine c) {p : P} (hp : valid p)
    (levels : List (Level F G)) : EndsAs (BackendError failed) (membershipIn engine p levels)
      (membershipIn (c.engine E) p levels) := by
  induction levels with
  | nil => exact .refl _
  | cons level levels ih =>
    apply (query_endsAs (h.containsPoint level.geometry p hp)).bind
    intro covers
    -- the search stops at the first level that covers the point
    cases covers with
    | true => exact .refl _
    | false => exact ih

theorem membershipAt_endsAs (h : Answers failed valid engine c) (v : Fuzzyregion F G) {p : P}
    (hp : valid p) :
    EndsAs (BackendError failed) (v.membershipAt engine p) (v.membershipAt (c.engine E) p) :=
  membershipIn_endsAs h hp v.levels

theorem bbox_endsAs (h : Answers failed valid engine c) (v : Fuzzyregion F G) :
    EndsAs (BackendError failed) (v.bbox engine) (v.bbox (c.engine E)) := by
  unfold bbox
  cases v.support with
  | none => exact .refl _
  | some geometry => exact (query_endsAs (h.boundingBox geometry)).map _

/-! ## Set operations -/

theorem pushNonEmptyLevel_endsAs (h : Answers failed valid engine c) (t : Alpha F) (geometry : Option G)
    (levels : List (Level F G)) :
    EndsAs (BackendError failed) (pushNonEmptyLevel t geometry engine levels)
      (pushNonEmptyLevel t geometry (c.engine E) levels) := by
  cases geometry with
  | none => exact .refl _
  | some geometry =>
    apply (query_endsAs (h.normalizeMultipolygon geometry)).bind
    intro normalized
    exact (query_endsAs (h.isEmpty normalized)).bind fun _ => .refl _

theorem finishSetOperation_endsAs (h : Answers failed valid engine c) (a : Fuzzyregion F G)
    (levels : List (Level F G)) (srid : Option Int32) :
    EndsAs (BackendError failed) (a.finishSetOperation levels srid engine)
      (a.finishSetOperation levels srid (c.engine E)) := by
  unfold finishSetOperation
  split_ifs
  · exact .refl _
  · exact canonicalize_endsAs h ⟨levels⟩

/-- The body of the set operations follows the combination of the cuts. -/
theorem setOperation_endsAs (h : Answers failed valid engine c) {a b : Fuzzyregion F G}
    {combine combine' : Alpha F → Outcome (CoreError F E) (Option G)}
    (hcombine : ∀ t, EndsAs (Stop.IsError (BackendError failed)) (combine t) (combine' t)) :
    EndsAs (Stop.IsError (BackendError failed)) (a.setOperation b engine combine)
      (a.setOperation b (c.engine E) combine') := by
  refine (EndsAs.refl (liftCore (a.ensureCompatibleSrid b))).bind fun _ => ?_
  refine (EndsAs.foldlM (fun levels t => ?_) (a.alphaDomain b) []).bind fun levels => ?_
  · apply (hcombine t).bind
    intro geometry
    exact liftCore_endsAs (pushNonEmptyLevel_endsAs h t geometry levels)
  · exact liftCore_endsAs (finishSetOperation_endsAs h a levels b.srid)

/-- A binary operation of the backend on two cuts. -/
theorem combination_endsAs {x y : Except E G} (h : EndsAs failed x y) :
    EndsAs (Stop.IsError (BackendError (F := F) failed))
      (liftCore (some <$> x.mapError .geometry)) (liftCore (some <$> y.mapError .geometry)) :=
  liftCore_endsAs ((query_endsAs h).map _)

end Fuzzyregion

end

variable [LawfulScalar F] {failed : E → Prop} {valid : P → Prop} {engine : GeometryEngine G P E}
  {c : CrispEngine G P}

open Fuzzyregion

theorem SetOp.run_endsAs (op : SetOp) (h : Answers failed valid engine c) (a b : Fuzzyregion F G) :
    EndsAs (Stop.IsError (BackendError failed)) (op.run a b engine) (op.run a b (c.engine E)) := by
  cases op with
  | union =>
    apply setOperation_endsAs h
    intro t
    dsimp only
    cases a.alphaCut (.ofAlpha t) <;> cases b.alphaCut (.ofAlpha t)
    -- the backend is asked only when both operands have a cut
    case some.some left right => exact combination_endsAs (h.union left right)
    all_goals exact .refl _
  | intersection =>
    apply setOperation_endsAs h
    intro t
    dsimp only
    cases a.alphaCut (.ofAlpha t) <;> cases b.alphaCut (.ofAlpha t)
    case some.some left right => exact combination_endsAs (h.intersection left right)
    all_goals exact .refl _
  | difference =>
    apply setOperation_endsAs h
    intro t
    -- the complement threshold is computed without the backend
    refine (EndsAs.refl _).bind fun exclusion => ?_
    cases a.alphaCut (.ofAlpha t) <;> cases b.strictAlphaCut exclusion
    case some.some left right => exact combination_endsAs (h.difference left right)
    all_goals exact .refl _

/-! ## The operations of the domain model -/

/-- **On a backend that may fail, every operation of the domain model ends as it does without
failures, or returns a failure of the backend.** -/
theorem operations_endAs (h : Answers failed valid engine c) :
    (∀ unchecked : UncheckedFuzzyregion F G, EndsAs (BackendError failed)
      (canonicalize unchecked engine) (canonicalize unchecked (c.engine E))) ∧
    (∀ (op : SetOp) (a b : Fuzzyregion F G), EndsAs (Stop.IsError (BackendError failed))
      (op.run a b engine) (op.run a b (c.engine E))) ∧
    (∀ (v : Fuzzyregion F G) (p : P), valid p → EndsAs (BackendError failed)
      (v.membershipAt engine p) (v.membershipAt (c.engine E) p)) ∧
    ∀ v : Fuzzyregion F G, EndsAs (BackendError failed) (v.bbox engine) (v.bbox (c.engine E)) :=
  ⟨canonicalize_endsAs h, fun op => op.run_endsAs h, fun v _ => membershipAt_endsAs h v,
    bbox_endsAs h⟩

/-- The mock engine of a backend that refuses every union. -/
def withoutUnions : GeometryEngine MockGeometry Int32 String :=
  { mockEngine.engine String with union := fun _ _ => .error "no unions today" }

theorem operations_endAs_withoutUnions :
    (∀ (op : SetOp) (a b : Fuzzyregion ℚ MockGeometry),
      EndsAs (Stop.IsError (BackendError fun error => error = "no unions today"))
        (op.run a b withoutUnions) (op.run a b (mockEngine.engine String))) ∧
    SetOp.union.run hill plateau withoutUnions =
      .error (.error (.geometry "no unions today")) := by
  have hanswers : Answers (fun error => error = "no unions today") (fun _ => True) withoutUnions
      mockEngine.toCrispEngine :=
    { answers_engine _ _ mockEngine.toCrispEngine with
      union := fun _ _ => Or.inl ⟨_, rfl, rfl⟩ }
  exact ⟨(operations_endAs hanswers).2.1, by decide +kernel⟩

end FuzzyRegion
