import FuzzyRegion.Core.Mock

/-!
# Reachable regions

The values a program can build: the results of canonicalization, closed under the successful set
operations. Every one of them is canonical, because every set operation ends either in the empty
value or in a canonicalization. On an engine whose containment is a partial order up to
topological equality, the neighbour checks of `canonicalize` extend to all pairs of levels.

## Main definitions

* `SetOp`: the three set operations
* `Reachable engine v`: `v` is built by canonicalizations and set operations
* `Invariant engine v`: the documented invariants of a non-empty region

## Main results

* `setOperation_canonical`, `Reachable.canonical`: one set operation, and a whole run, give
  canonical regions
* `Canonical.strictlyNested`: nested and distinct neighbours give nested and distinct pairs
* `reachable_invariant`: the documented invariants hold of every reachable region
-/

namespace FuzzyRegion

open Fallible

variable {F G P E : Type} [LawfulScalar F] {engine : GeometryEngine G P E}

/-- The standard set operations. -/
inductive SetOp where
  | union
  | intersection
  | difference
deriving DecidableEq

/-- Run a set operation. -/
def SetOp.run (op : SetOp) (a b : Fuzzyregion F G) (engine : GeometryEngine G P E) :
    Outcome (CoreError F E) (Fuzzyregion F G) :=
  match op with
  | .union => a.union b engine
  | .intersection => a.intersection b engine
  | .difference => a.difference b engine

namespace Fuzzyregion

/-! ## Set operations end in the empty value or in a canonicalization -/

@[simp] theorem liftCore_eq_ok_iff {α : Type} {x : CoreResult F E α} {a : α} :
    liftCore x = .ok a ↔ x = .ok a := mapError_eq_ok_iff

@[simp] theorem liftCore_ok {α : Type} (a : α) :
    liftCore (.ok a : CoreResult F E α) = .ok a := rfl

theorem finishSetOperation_eq_ok {a v : Fuzzyregion F G} {levels : List (Level F G)}
    {srid : Option Int32} (h : a.finishSetOperation levels srid engine = .ok v) :
    v = empty (a.srid.or srid) ∨ canonicalize ⟨levels⟩ engine = .ok v := by
  unfold finishSetOperation at h
  split_ifs at h with hempty
  · exact Or.inl (pure_eq_ok_iff.mp h).symm
  · exact Or.inr h

/-- A successful set operation returns a canonical region, whatever its operands are. -/
theorem setOperation_canonical {a b v : Fuzzyregion F G}
    {combine : Alpha F → Outcome (CoreError F E) (Option G)}
    (h : a.setOperation b engine combine = .ok v) : Canonical engine v := by
  obtain ⟨-, h⟩ := check_bind_eq_ok_iff.mp h
  obtain ⟨levels, -, h⟩ := bind_eq_ok_iff.mp h
  -- the last step is the empty value or a canonicalization
  rcases finishSetOperation_eq_ok (liftCore_eq_ok_iff.mp h) with rfl | h
  · exact canonical_empty engine _
  · exact canonicalize_canonical h

theorem setOp_canonical {op : SetOp} {a b v : Fuzzyregion F G} (h : op.run a b engine = .ok v) :
    Canonical engine v := by
  cases op with
  | union => exact setOperation_canonical h
  | intersection => exact setOperation_canonical h
  | difference => exact setOperation_canonical h

/-! ## Runs -/

/-- The regions built by canonicalizations and successful set operations. -/
inductive Reachable (engine : GeometryEngine G P E) : Fuzzyregion F G → Prop where
  | canonicalize {unchecked : UncheckedFuzzyregion F G} {v : Fuzzyregion F G}
      (h : canonicalize unchecked engine = .ok v) : Reachable engine v
  | setOp (op : SetOp) {a b v : Fuzzyregion F G} (ha : Reachable engine a)
      (hb : Reachable engine b) (h : op.run a b engine = .ok v) : Reachable engine v

/-- Every reachable region is canonical. -/
theorem Reachable.canonical {v : Fuzzyregion F G} (h : Reachable engine v) :
    Canonical engine v := by
  cases h with
  | canonicalize h => exact canonicalize_canonical h
  | setOp op _ _ h => exact setOp_canonical h

/-! ## All pairs of levels -/

/-- Containment is a partial order whose equality is topological equality. -/
structure ContainmentOrder (engine : GeometryEngine G P E) : Prop where
  trans : ∀ {a b c}, engine.contains c b = .ok true → engine.contains b a = .ok true →
    engine.contains c a = .ok true
  equals_iff : ∀ {a b}, engine.topologicallyEquals a b = .ok true ↔
    engine.contains a b = .ok true ∧ engine.contains b a = .ok true

/-- Normalizing a second time changes nothing. -/
def NormalizeIdempotent (engine : GeometryEngine G P E) : Prop :=
  ∀ {g g'}, engine.normalizeMultipolygon g = .ok g' → engine.normalizeMultipolygon g' = .ok g'

theorem normalizeIdempotent_engine {c : CrispEngine G P}
    (h : ∀ g, c.normalizeMultipolygon (c.normalizeMultipolygon g) = c.normalizeMultipolygon g) :
    NormalizeIdempotent (c.engine E) := by
  intro g g' hg
  obtain rfl := Except.ok.inj hg
  exact congrArg Except.ok (h g)

/-- The lower of two levels contains the higher one, and has another extent. -/
def StrictlyInside (engine : GeometryEngine G P E) (higher lower : Level F G) : Prop :=
  engine.contains lower.geometry higher.geometry = .ok true ∧
    engine.topologicallyEquals higher.geometry lower.geometry ≠ .ok true

theorem StrictlyInside.trans (horder : ContainmentOrder engine) {a b c : Level F G}
    (hab : StrictlyInside engine a b) (hbc : StrictlyInside engine b c) :
    StrictlyInside engine a c := by
  refine ⟨horder.trans hbc.1 hab.1, fun heq => hab.2 ?_⟩
  -- if `a` and `c` had one extent, `b` between them would have it too
  have hac := (horder.equals_iff.mp heq).1
  exact horder.equals_iff.mpr ⟨horder.trans hac hbc.1, hab.1⟩

/-- Nested and distinct neighbours make every pair of levels strictly nested. -/
theorem Canonical.strictlyNested (horder : ContainmentOrder engine) {v : Fuzzyregion F G}
    (hv : Canonical engine v) : v.levels.Pairwise (StrictlyInside engine) := by
  have htrans : IsTrans (Level F G) (StrictlyInside engine) :=
    ⟨fun _ _ _ hab hbc => hab.trans horder hbc⟩
  have hchain : v.levels.IsChain (StrictlyInside engine) := by
    apply (LevelStack.isChain_and hv.nested hv.distinct).imp
    intro higher lower ⟨hnest, hdiff⟩
    refine ⟨hnest, ?_⟩
    rw [show engine.topologicallyEquals higher.geometry lower.geometry = .ok false from hdiff]
    simp
  exact hchain.pairwise

/-- The documented invariants of a non-empty region. -/
structure Invariant (engine : GeometryEngine G P E) (v : Fuzzyregion F G) : Prop where
  descending : v.levels.Pairwise fun higher lower => lower.alpha < higher.alpha
  normalized : ∀ l ∈ v.levels, engine.normalizeMultipolygon l.geometry = .ok l.geometry
  nonEmpty : ∀ l ∈ v.levels, engine.isEmpty l.geometry = .ok false
  sharedSrid : ∃ s, v.srid = some s ∧ ∀ l ∈ v.levels, engine.srid l.geometry = .ok s
  strictlyNested : v.levels.Pairwise (StrictlyInside engine)

theorem Canonical.normalize_eq (hidem : NormalizeIdempotent engine) {v : Fuzzyregion F G}
    (hv : Canonical engine v) {l : Level F G} (hl : l ∈ v.levels) :
    engine.normalizeMultipolygon l.geometry = .ok l.geometry := by
  obtain ⟨g, hg⟩ := hv.normalized l hl
  exact hidem hg

theorem Canonical.sharedSrid {v : Fuzzyregion F G} (hv : Canonical engine v)
    (hne : v.levels ≠ []) :
    ∃ s, v.srid = some s ∧ ∀ l ∈ v.levels, engine.srid l.geometry = .ok s := by
  obtain ⟨first, hfirst⟩ := List.exists_mem_of_ne_nil _ hne
  obtain ⟨s, hs, -⟩ := hv.sameSrid first hfirst
  refine ⟨s, hs, fun l hl => ?_⟩
  obtain ⟨s', hs', hl'⟩ := hv.sameSrid l hl
  rwa [Option.some.inj (hs.symm.trans hs')]

/-- **The documented invariants hold of every reachable non-empty region**: descending alphas,
normalized non-empty geometries with the region's SRID, and strict nesting of all pairs. -/
theorem reachable_invariant (horder : ContainmentOrder engine)
    (hidem : NormalizeIdempotent engine) {v : Fuzzyregion F G} (hv : Reachable engine v)
    (hne : v.levels ≠ []) : Invariant engine v where
  descending := hv.canonical.descending
  normalized _ hl := hv.canonical.normalize_eq hidem hl
  nonEmpty := hv.canonical.nonEmpty
  sharedSrid := hv.canonical.sharedSrid hne
  strictlyNested := hv.canonical.strictlyNested horder

theorem mock_containmentOrder : ContainmentOrder (mockEngine.engine E) where
  trans := by
    intro a b c hbc hab
    have hbc := decide_eq_true_iff.mp (Except.ok.inj hbc)
    have hab := decide_eq_true_iff.mp (Except.ok.inj hab)
    exact congrArg Except.ok (decide_eq_true ⟨hbc.1.trans hab.1, hab.2.trans hbc.2⟩)
  equals_iff := by
    intro a b
    simp only [CrispEngine.engine_topologicallyEquals, CrispEngine.engine_contains,
      Except.ok.injEq, mockEngine, mockOperations, decide_eq_true_iff]
    constructor
    · rintro ⟨hsrid, hcells⟩
      exact ⟨⟨hsrid, hcells.ge⟩, ⟨hsrid.symm, hcells.le⟩⟩
    · rintro ⟨⟨hsrid, hge⟩, -, hle⟩
      exact ⟨hsrid, hle.antisymm hge⟩

theorem mock_normalizeIdempotent : NormalizeIdempotent (mockEngine.engine E) := fun _ => rfl

/-- The union of two canonical regions, with its levels collapsed from three to two. -/
theorem reachable_invariant_union : Invariant (mockEngine.engine Empty)
    (⟨some 4326, [⟨Alpha.one, ⟨4326, {1}⟩⟩,
      ⟨fourFifths, ⟨4326, {1, 2, 3}⟩⟩]⟩ : Fuzzyregion ℚ MockGeometry) :=
  reachable_invariant mock_containmentOrder mock_normalizeIdempotent
    (.setOp .union (.canonicalize canonicalize_hill) (.canonicalize canonicalize_plateau)
      (by decide +kernel))
    (by simp)

end Fuzzyregion

end FuzzyRegion
