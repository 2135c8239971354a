import FuzzyRegion.Core.FromLevels
import FuzzyRegion.Pg.Api
import FuzzyRegion.Pg.Zones

/-!
# Validation

A value counts as valid when it can be decoded, and decoding canonicalizes: it normalizes the
geometries, takes over their SRID and drops repeated extents. So validation accepts the payloads that
can be repaired, among which the valid ones are those that need no repair.

## Main definitions

* `StoredInvariants`: the documented invariants, of the payload as it is stored
* `Repairable`, `NeedsNoRepair`: what canonicalization checks of a payload, and what it changes

## Main results

* `isValid_iff_repairable`: what validation accepts
* `storedInvariants_iff`: a valid payload is a repairable one that needs no repair
* `isValid_iff_storedInvariants_iff`: when validation decides the invariants
-/

namespace FuzzyRegion

open Numeric Fallible Fuzzyregion SqlFuzzyregion

variable {P S : Type}

/-- The documented invariants of a payload as it is stored: normalized and non-empty geometries with
the declared SRID, each level contained in the next and not equal to it. -/
structure StoredInvariants (c : CrispEngine PostgisGeometry P) (stored : StoredFuzzyregion) :
    Prop where
  normalized : ∀ l ∈ stored.region.levels, c.normalizeMultipolygon l.geometry = l.geometry
  nonEmpty : ∀ l ∈ stored.region.levels, c.isEmpty l.geometry = false
  declared : ∀ l ∈ stored.region.levels, stored.srid = some (c.srid l.geometry)
  strictlyNested : stored.region.levels.IsChain fun higher lower =>
    c.contains lower.geometry higher.geometry = true ∧
      c.topologicallyEquals higher.geometry lower.geometry = false

/-- What canonicalization checks: the normalized geometries are non-empty, of one SRID and nested. -/
structure Repairable (c : CrispEngine PostgisGeometry P) (stored : StoredFuzzyregion) : Prop where
  nonEmpty : ∀ l ∈ stored.region.levels, c.isEmpty (c.normalizeMultipolygon l.geometry) = false
  sameSrid : ∀ l ∈ stored.region.levels, ∀ m ∈ stored.region.levels,
    c.srid (c.normalizeMultipolygon l.geometry) = c.srid (c.normalizeMultipolygon m.geometry)
  nested : stored.region.levels.IsChain fun higher lower =>
    c.contains (c.normalizeMultipolygon lower.geometry) (c.normalizeMultipolygon higher.geometry) =
      true

/-- What canonicalization would change: geometries that are not normalized, an SRID other than
theirs, neighbours of one extent. -/
structure NeedsNoRepair (c : CrispEngine PostgisGeometry P) (stored : StoredFuzzyregion) :
    Prop where
  normalized : ∀ l ∈ stored.region.levels, c.normalizeMultipolygon l.geometry = l.geometry
  declared : ∀ l ∈ stored.region.levels, stored.srid = some (c.srid l.geometry)
  distinct : stored.region.levels.IsChain fun higher lower =>
    c.topologicallyEquals higher.geometry lower.geometry = false

/-- The levels of a payload descend, so that well-formedness is about them in their order. -/
theorem wellFormed_region_iff {c : CrispEngine PostgisGeometry P} {stored : StoredFuzzyregion} :
    WellFormed c stored.region.levels ↔ Repairable c stored := by
  have hdesc := descending_region stored
  constructor
  · intro h
    exact ⟨h.nonEmpty, h.sameSrid, h.nested _ (.refl _) hdesc⟩
  · intro h
    have hnodup : (stored.region.levels.map Level.alpha).Nodup :=
      List.pairwise_map.mpr (hdesc.imp fun hlt => hlt.ne')
    refine ⟨h.nonEmpty, hnodup, h.sameSrid, fun sorted hperm hsorted => ?_⟩
    have heq : sorted = stored.region.levels :=
      Descending.eq_of_perm (hsorted.imp le_of_lt) (hdesc.imp le_of_lt) hperm
        ((hperm.map Level.alpha).nodup_iff.mpr hnodup)
    rw [heq]
    exact h.nested

section

variable {f64 : F64Text} {texts : WrappedTexts S} {e : RegularizedEngine PostgisGeometry P}
  {stored : StoredFuzzyregion}

/-- Validation accepts the payloads that can be repaired. -/
theorem isValid_iff_repairable :
    fuzzyregionIsValid f64 texts (e.engine (PostgisError S)) ⟨stored⟩ = true ↔
      Repairable e.toCrispEngine stored := by
  rw [← wellFormed_region_iff, ← exists_fromLevels_iff (E := PostgisError S), fromLevels,
    ← decode_eq_canonicalize, fuzzyregionIsValid, validationErrors]
  cases hrun : toDomain f64 ⟨stored⟩ (e.engine (PostgisError S)) with
  | ok d => exact iff_of_true rfl ⟨d, toDomain_eq_ok_iff.mp hrun⟩
  | error error =>
    refine iff_of_false Bool.false_ne_true ?_
    rintro ⟨d, hd⟩
    cases hrun.symm.trans (toDomain_eq_ok_iff.mpr hd)

/-- A payload satisfies the invariants when it can be repaired and needs no repair. -/
theorem storedInvariants_iff {c : CrispEngine PostgisGeometry P} :
    StoredInvariants c stored ↔ Repairable c stored ∧ NeedsNoRepair c stored := by
  constructor
  · intro h
    refine ⟨⟨fun l hl => ?_, fun l hl m hm => ?_, ?_⟩, h.normalized, h.declared,
      h.strictlyNested.imp fun _ _ hnest => hnest.2⟩
    · rw [h.normalized l hl]
      exact h.nonEmpty l hl
    · rw [h.normalized l hl, h.normalized m hm]
      exact Option.some.inj ((h.declared l hl).symm.trans (h.declared m hm))
    · refine List.IsChain.imp_of_mem_imp ?_ h.strictlyNested
      intro higher lower hh hl hnest
      rw [h.normalized higher hh, h.normalized lower hl]
      exact hnest.1
  · rintro ⟨hrepairable, hno⟩
    refine ⟨hno.normalized, fun l hl => ?_, hno.declared, ?_⟩
    · have hlive := hrepairable.nonEmpty l hl
      rwa [hno.normalized l hl] at hlive
    · refine List.IsChain.imp_of_mem_imp ?_ (LevelStack.isChain_and hrepairable.nested hno.distinct)
      intro higher lower hh hl hnest
      rw [hno.normalized higher hh, hno.normalized lower hl] at hnest
      exact hnest

/-- **Validation decides the documented invariants** of a payload exactly when canonicalization does
not accept the payload by repairing it. -/
theorem isValid_iff_storedInvariants_iff :
    (fuzzyregionIsValid f64 texts (e.engine (PostgisError S)) ⟨stored⟩ = true ↔
        StoredInvariants e.toCrispEngine stored) ↔
      (Repairable e.toCrispEngine stored → NeedsNoRepair e.toCrispEngine stored) := by
  rw [isValid_iff_repairable, storedInvariants_iff, iff_self_and]

end

/-- One cell at two memberships, the second time with a repetition, under a declared SRID that is
not its own. -/
def repeated : StoredFuzzyregion where
  version := .v1
  srid := some 2
  levels := [certainCell,
    ⟨binaryAlpha 0x3FD0000000000000 (by decide), [1, 5, 5], List.cons_ne_nil _ _, by decide⟩]
  valid := by decide +kernel

def untold : WrappedTexts Empty where
  storage _ := []
  spi := Empty.elim

/-- The payload of `repeated` is read from disk and accepted, although its second geometry is not
normalized, has the extent of the first, and both have another SRID than the declared one. -/
theorem repeated_isValid :
    StoredFuzzyregion.decodeBody (· % 2 ^ 64) [70, 90, 82, 71, 1, 1, 0, 0, 0, 0, 0, 2, 0, 0, 0, 2,
      63, 240, 0, 0, 0, 0, 0, 0, 0, 0, 0, 2, 1, 5, 63, 208, 0, 0, 0, 0, 0, 0, 0, 0, 0, 3, 1, 5,
      5] = .ok repeated ∧
    ¬ (fuzzyregionIsValid bitsText untold (zoneEngine.engine (PostgisError Empty)) ⟨repeated⟩ =
      true ↔ StoredInvariants zoneEngine.toCrispEngine repeated) := by
  have hvalid : fuzzyregionIsValid bitsText untold (zoneEngine.engine (PostgisError Empty))
      ⟨repeated⟩ = true := by
    decide +kernel
  refine ⟨by decide +kernel, fun h => ?_⟩
  -- the header declares `2`, and the reference system of the cells is `1`
  have hsrid := (h.mp hvalid).declared ⟨Alpha.one, ⟨[1, 5], List.cons_ne_nil _ _⟩⟩ (List.mem_cons_self ..)
  exact absurd hsrid (by decide)

end FuzzyRegion
