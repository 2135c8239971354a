import FuzzyRegion.Pg.TextRoundTrip

/-!
# Which regions survive storage

A domain value is written field by field, but its reader canonicalizes the levels again and drops
the stored SRID. A reachable region is canonical, so its levels come back as they were, and its SRID
with them: it is that of the first level. Only a region without levels has no level to take it from.
The input function reads the payload of a literal the same way, so its literal survives in the
same cases.

## Main definitions

* `byteEngine`: an engine on byte strings, whose geometries are sets of bytes

## Main results

* `input_output_eq_ok_iff`: a literal survives exactly when its payload does
* `lossless_iff`: a reachable region survives exactly when it has levels or no SRID
* `disjoint_intersection_loses_srid`: an intersection that loses its SRID
-/

namespace FuzzyRegion

open Numeric Fallible Fuzzyregion SqlFuzzyregion

variable {P S : Type}

/-- The value of a stored region survives output and input exactly when the region survives
storage. -/
theorem input_output_eq_ok_iff {f64 : F64Text} {engine : PostgisEngine P S} {v : DomainFuzzyregion}
    {stored : StoredFuzzyregion} (hstores : Stores v stored) :
    input f64 engine (output f64 ⟨stored⟩) = .ok ⟨stored⟩ ↔
      decodeStoredFuzzyregion stored engine = .ok v := by
  have hinput : input f64 engine (output f64 ⟨stored⟩) = .ok ⟨stored⟩ ↔
      ∃ v', decodeStoredFuzzyregion stored engine = .ok v' ∧ Stores v' stored := by
    rw [input_output]
    simp only [bind_eq_ok_iff, mapError_eq_ok_iff, toDomain, fromDomain, map_eq_ok_iff,
      encodeDomainFuzzyregion_eq_ok_iff, SqlFuzzyregion.mk.injEq, exists_eq_right]
  rw [hinput]
  constructor
  · -- a payload determines its region
    rintro ⟨v', hdecode, hstores'⟩
    rwa [hstores.region_unique hstores']
  · intro hdecode
    exact ⟨v, hdecode, hstores⟩

/-- **A reachable region survives storage, and its SQL value text output and input, exactly when
it has a level or has no SRID.** -/
theorem lossless_iff (f64 : F64Text) {c : CrispEngine PostgisGeometry P}
    (hidem : ∀ g, c.normalizeMultipolygon (c.normalizeMultipolygon g) = c.normalizeMultipolygon g)
    {v : DomainFuzzyregion} (hv : Reachable (c.engine (PostgisError S)) v)
    (hcount : v.levels.length < 2 ^ 32)
    (hsize : ∀ l ∈ v.levels, l.geometry.ewkb.length < 2 ^ 32) :
    ∃ stored, encodeDomainFuzzyregion v = (.ok stored : Except (PostgisError S) _) ∧
      (decodeStoredFuzzyregion stored (c.engine (PostgisError S)) = .ok v ↔
        v.levels ≠ [] ∨ v.srid = none) ∧
      (input f64 (c.engine (PostgisError S)) (output f64 ⟨stored⟩) = .ok ⟨stored⟩ ↔
        v.levels ≠ [] ∨ v.srid = none) := by
  have hcanonical := hv.canonical
  obtain ⟨stored, hstores⟩ := exists_stores hcanonical
    ⟨Nat.le_pred_of_lt hcount, fun l hl => Nat.le_pred_of_lt (hsize l hl)⟩
  -- the reader sees the levels of the region only
  have hdecode : decodeStoredFuzzyregion stored (c.engine (PostgisError S)) = .ok v ↔
      v.levels ≠ [] ∨ v.srid = none := by
    rw [hstores.decode_eq]
    refine canonicalize_levels_eq_ok_iff hcanonical fun l hl => ?_
    exact hcanonical.normalize_eq (normalizeIdempotent_engine hidem) hl
  exact ⟨stored, encodeDomainFuzzyregion_eq_ok_iff.mpr hstores, hdecode,
    (input_output_eq_ok_iff hstores).trans hdecode⟩

/-! ## An engine on byte strings -/

namespace PostgisGeometry

/-- The cells of a geometry are the bytes after the first one. -/
def cells (geometry : PostgisGeometry) : List UInt8 := geometry.ewkb.tail

def ofCells (cells : List UInt8) : PostgisGeometry := ⟨1 :: cells, List.cons_ne_nil 1 cells⟩

end PostgisGeometry

/-- An engine whose geometries are sets of bytes, all in one reference system. -/
def byteEngine : CrispEngine PostgisGeometry UInt8 where
  normalizeMultipolygon geometry := geometry
  isEmpty geometry := geometry.cells.isEmpty
  srid _ := 4326
  topologicallyEquals left right :=
    decide (left.cells ⊆ right.cells) && decide (right.cells ⊆ left.cells)
  contains container containee := decide (containee.cells ⊆ container.cells)
  containsPoint geometry point := geometry.cells.contains point
  union left right := .ofCells (left.cells ++ right.cells)
  intersection left right := .ofCells (left.cells.filter right.cells.contains)
  difference left right := .ofCells (left.cells.filter fun cell => !right.cells.contains cell)
  area geometry := F64.ofRat false geometry.cells.dedup.length
  boundingBox geometry := geometry

/-- The certain region on one cell. -/
def islet (cell : UInt8) : DomainFuzzyregion where
  srid := some 4326
  levels := [⟨Alpha.one, .ofCells [cell]⟩]

theorem canonicalize_islet (cell : UInt8) :
    canonicalize ⟨(islet cell).levels⟩ (byteEngine.engine (PostgisError Empty)) =
      .ok (islet cell) :=
  rfl

theorem reachable_islet (cell : UInt8) :
    Reachable (byteEngine.engine (PostgisError Empty)) (islet cell) :=
  .canonicalize (canonicalize_islet cell)

theorem lossless_iff_islet :
    ∃ stored, encodeDomainFuzzyregion (islet 1) =
        (.ok stored : Except (PostgisError Empty) _) ∧
      (decodeStoredFuzzyregion stored (byteEngine.engine (PostgisError Empty)) = .ok (islet 1) ↔
        (islet 1).levels ≠ [] ∨ (islet 1).srid = none) ∧
      (input bitsText (byteEngine.engine (PostgisError Empty)) (output bitsText ⟨stored⟩) =
          .ok ⟨stored⟩ ↔
        (islet 1).levels ≠ [] ∨ (islet 1).srid = none) :=
  lossless_iff bitsText (fun _ => rfl) (reachable_islet 1) (by decide) (by decide)

/-- The empty region in the reference system of the islets. -/
def nowhere : DomainFuzzyregion := empty (some 4326)

/-- Two islets do not meet. Their intersection keeps their SRID and stores it, but neither the
region read from the payload nor the value read from its literal has it. -/
theorem disjoint_intersection_loses_srid :
    Reachable (byteEngine.engine (PostgisError Empty)) nowhere ∧
    (islet 1).intersection (islet 2) (byteEngine.engine (PostgisError Empty)) =
      .ok nowhere ∧
    encodeDomainFuzzyregion nowhere =
      (.ok (.empty (some 4326)) : Except (PostgisError Empty) _) ∧
    decodeStoredFuzzyregion (.empty (some 4326)) (byteEngine.engine (PostgisError Empty)) ≠
      .ok nowhere ∧
    input bitsText (byteEngine.engine (PostgisError Empty))
        (output bitsText ⟨.empty (some 4326)⟩) ≠ .ok ⟨.empty (some 4326)⟩ := by
  have hrun : (islet 1).intersection (islet 2) (byteEngine.engine (PostgisError Empty)) =
      .ok nowhere := by
    decide +kernel
  have hstores : Stores nowhere (.empty (some 4326)) := ⟨rfl, .nil⟩
  have hdecode : decodeStoredFuzzyregion (.empty (some 4326))
      (byteEngine.engine (PostgisError Empty)) ≠ .ok nowhere := by
    -- the region read back is the empty one without SRID
    intro h
    exact absurd (Fuzzyregion.mk.inj (Except.ok.inj h)).1 (by decide)
  refine ⟨.setOp .intersection (reachable_islet 1) (reachable_islet 2) hrun, hrun, ?_, hdecode, ?_⟩
  · exact encodeDomainFuzzyregion_eq_ok_iff.mpr hstores
  · exact (input_output_eq_ok_iff hstores).not.mpr hdecode

end FuzzyRegion
