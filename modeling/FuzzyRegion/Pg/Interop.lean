import FuzzyRegion.Core.Reachable
import FuzzyRegion.Data.UpToFailure
import FuzzyRegion.Pg.StorageCodec

/-!
# Interop with the geometry backend

Geometries of the extension are non-empty EWKB byte strings, and the backend is a geometry engine
on them. A domain value is stored field by field; reading it back wraps the bytes of its levels and
canonicalizes them again, and takes nothing else from the payload.

## Main definitions

* `PostgisGeometry`, `PostgisError`
* `encodeDomainFuzzyregion`, `decodeStoredFuzzyregion`
* `StoredFuzzyregion.region`: the levels of a payload before canonicalization
* `ExceedsLimit`: the limits of the storage
* `RefusedBy value error`: the error tells what keeps a region from being stored

## Main results

* `encodeDomainFuzzyregion_eq_ok_iff`: the payload has the SRID, the alphas and the bytes
* `exists_stores`: a canonical region whose level count and byte lengths fit has a payload
* `encodeDomainFuzzyregion_errorsIn`: a region is refused for what is wrong with it
* `Stores.decode_eq`, `decode_eq_canonicalize`: reading a payload canonicalizes its levels
-/

namespace FuzzyRegion

open Numeric Fallible StoredFuzzyregion

/-- A geometry value stored as EWKB. -/
@[ext] structure PostgisGeometry where
  ewkb : List UInt8
  nonEmpty : ewkb ≠ []

instance : DecidableEq PostgisGeometry := fun _ _ =>
  decidable_of_iff _ PostgisGeometry.ext_iff.symm

/-- Errors of the integration layer; `S` is the error type of the database interface. -/
inductive PostgisError (S : Type) where
  /-- A geometry wrapper was constructed from empty bytes. -/
  | emptyGeometryBytes
  /-- A point wrapper was constructed from empty bytes. -/
  | emptyPointBytes
  /-- A point argument was not a non-empty POINT geometry. -/
  | invalidPointGeometry
  /-- A stored payload violated invariants that should already have been canonicalized. -/
  | corruptStoredValue (message : List Char)
  /-- PostGIS unexpectedly returned `NULL`. -/
  | nullResult (context : String)
  /-- A stored payload could not be converted into runtime values. -/
  | storage (error : StorageError)
  /-- The database interface returned an error. -/
  | spi (error : S)
deriving DecidableEq

variable {P S : Type}

/-- `PostgisGeometry::from_ewkb`. -/
def PostgisGeometry.fromEwkb (ewkb : List UInt8) : Except (PostgisError S) PostgisGeometry :=
  if h : ewkb = [] then .error .emptyGeometryBytes else .ok ⟨ewkb, h⟩

/-- The regions of the extension. -/
abbrev DomainFuzzyregion := Fuzzyregion F64 PostgisGeometry

/-- The backend of the extension, which the database provides. -/
abbrev PostgisEngine (P S : Type) := GeometryEngine PostgisGeometry P (PostgisError S)

/-- Decode a stored payload into the domain representation. -/
def decodeStoredFuzzyregion (stored : StoredFuzzyregion) (engine : PostgisEngine P S) :
    CoreResult F64 (PostgisError S) DomainFuzzyregion := do
  let levels ← stored.levels.mapM fun level => do
    let geometry ← (PostgisGeometry.fromEwkb level.geometryEwkb).mapError CoreError.geometry
    return ⟨level.alpha, geometry⟩
  Fuzzyregion.canonicalize ⟨levels⟩ engine

/-- Encode a domain value into the persisted representation. -/
def encodeDomainFuzzyregion (value : DomainFuzzyregion) :
    Except (PostgisError S) StoredFuzzyregion := do
  let levels ← value.levels.mapM fun level =>
    (StoredLevel.new level.alpha level.geometry.ewkb).mapError PostgisError.storage
  (StoredFuzzyregion.new value.srid levels).mapError .storage

/-! ## Payloads of a region -/

/-- The stored level holds the alpha and the bytes of a level. -/
def StoresLevel (level : Level F64 PostgisGeometry) (stored : StoredLevel) : Prop :=
  stored.alpha = level.alpha ∧ stored.geometryEwkb = level.geometry.ewkb

theorem map_alpha_eq {levels : List (Level F64 PostgisGeometry)} {stored : List StoredLevel}
    (h : List.Forall₂ StoresLevel levels stored) :
    stored.map StoredLevel.alpha = levels.map Level.alpha :=
  map_eq_map_of_forall₂ (h.flip.imp fun _ _ hstores => hstores.1)

theorem pairwise_alpha_iff {levels : List (Level F64 PostgisGeometry)} {stored : List StoredLevel}
    (R : Alpha F64 → Alpha F64 → Prop) (h : List.Forall₂ StoresLevel levels stored) :
    (stored.Pairwise fun l m => R l.alpha m.alpha) ↔
      levels.Pairwise fun l m => R l.alpha m.alpha := by
  rw [← List.pairwise_map, map_alpha_eq h, List.pairwise_map]

theorem ne_nil_iff {levels : List (Level F64 PostgisGeometry)} {stored : List StoredLevel}
    (h : List.Forall₂ StoresLevel levels stored) : stored ≠ [] ↔ levels ≠ [] := by
  rw [← List.length_pos_iff, ← List.length_pos_iff, h.length_eq]

/-- The payload holds the SRID and the levels of a region. -/
structure Stores (value : DomainFuzzyregion) (stored : StoredFuzzyregion) : Prop where
  srid : stored.srid = value.srid
  levels : List.Forall₂ StoresLevel value.levels stored.levels

theorem storeLevels_eq_ok_iff {levels : List (Level F64 PostgisGeometry)}
    {stored : List StoredLevel} :
    levels.mapM (fun level => (StoredLevel.new level.alpha level.geometry.ewkb).mapError
      (PostgisError.storage (S := S))) = .ok stored ↔ List.Forall₂ StoresLevel levels stored := by
  simp only [mapM_eq_ok_iff, mapError_eq_ok_iff, StoredLevel.new_eq_ok_iff]
  rfl

theorem encodeDomainFuzzyregion_eq_ok_iff {value : DomainFuzzyregion} {stored : StoredFuzzyregion} :
    encodeDomainFuzzyregion value = (.ok stored : Except (PostgisError S) _) ↔
      Stores value stored := by
  simp only [encodeDomainFuzzyregion, bind_eq_ok_iff, storeLevels_eq_ok_iff, mapError_eq_ok_iff,
    StoredFuzzyregion.new, StoredFuzzyregion.withVersion_eq_ok_iff]
  constructor
  · rintro ⟨levels, hstores, -, hsrid, rfl⟩
    exact ⟨hsrid, hstores⟩
  · intro hstores
    -- there is only one version
    exact ⟨stored.levels, hstores.levels, trivial, hstores.srid, rfl⟩

/-- Two regions of one payload are equal. -/
theorem Stores.region_unique {value value' : DomainFuzzyregion} {stored : StoredFuzzyregion}
    (h : Stores value stored) (h' : Stores value' stored) : value = value' := by
  -- a level is its alpha and its bytes
  have hlevel : Relator.LeftUnique StoresLevel := by
    intro l l' level hl hl'
    obtain ⟨alpha, ewkb, _⟩ := l
    obtain ⟨alpha', ewkb', _⟩ := l'
    obtain rfl : alpha = alpha' := hl.1.symm.trans hl'.1
    obtain rfl : ewkb = ewkb' := hl.2.symm.trans hl'.2
    rfl
  have hlevels := hlevel.forall₂ h.levels h'.levels
  have hsrid := h.srid.symm.trans h'.srid
  obtain ⟨srid, levels⟩ := value
  obtain rfl : srid = value'.srid := hsrid
  obtain rfl : levels = value'.levels := hlevels
  rfl

/-- Reading the payload of a region canonicalizes the levels of the region. -/
theorem Stores.decode_eq {value : DomainFuzzyregion} {stored : StoredFuzzyregion}
    (h : Stores value stored) (engine : PostgisEngine P S) :
    decodeStoredFuzzyregion stored engine = Fuzzyregion.canonicalize ⟨value.levels⟩ engine := by
  have hlevels : (stored.levels.mapM fun level => do
      let geometry ← (PostgisGeometry.fromEwkb level.geometryEwkb).mapError CoreError.geometry
      return (⟨level.alpha, geometry⟩ : Level F64 PostgisGeometry)) =
      (.ok value.levels : CoreResult F64 (PostgisError S) _) := by
    rw [mapM_eq_ok_iff]
    apply h.levels.flip.imp
    intro level l hstores
    obtain ⟨halpha, hewkb⟩ := hstores
    rw [halpha, hewkb, PostgisGeometry.fromEwkb, dif_neg l.geometry.nonEmpty]
    rfl
  rw [decodeStoredFuzzyregion, hlevels, ok_bind]

/-! ## The raw region of a payload -/

/-- A stored level as a raw level. -/
def StoredLevel.level (level : StoredLevel) : Level F64 PostgisGeometry :=
  ⟨level.alpha, level.geometryEwkb, level.nonEmpty⟩

/-- The SRID and the levels of a payload, as they are stored. -/
def StoredFuzzyregion.region (stored : StoredFuzzyregion) : DomainFuzzyregion :=
  ⟨stored.srid, stored.levels.map StoredLevel.level⟩

theorem stores_region (stored : StoredFuzzyregion) : Stores stored.region stored where
  srid := rfl
  levels := List.forall₂_map_left_iff.mpr (List.forall₂_same.mpr fun _ _ => ⟨rfl, rfl⟩)

/-- Reading any payload canonicalizes its levels. -/
theorem decode_eq_canonicalize (stored : StoredFuzzyregion) (engine : PostgisEngine P S) :
    decodeStoredFuzzyregion stored engine = Fuzzyregion.canonicalize ⟨stored.region.levels⟩ engine :=
  (stores_region stored).decode_eq engine

/-- The alphas of a payload descend. -/
theorem descending_region (stored : StoredFuzzyregion) :
    stored.region.levels.Pairwise fun higher lower => lower.alpha < higher.alpha :=
  (pairwise_alpha_iff (fun x y => y < x) (stores_region stored).levels).mp
    (Descending.isChain_iff_pairwise.mp (validateLevels_eq_ok_iff.mp stored.valid).2.2)

/-- The level count and the byte lengths of a region fit their fields. -/
structure Fits (value : DomainFuzzyregion) : Prop where
  count : value.levels.length ≤ u32Max
  small : ∀ l ∈ value.levels, l.geometry.ewkb.length ≤ u32Max

/-- The levels of a region that fits can be stored one by one. -/
theorem Fits.exists_levels {value : DomainFuzzyregion} (h : Fits value) :
    ∃ levels, List.Forall₂ StoresLevel value.levels levels :=
  exists_forall₂ fun l hl =>
    ⟨⟨l.alpha, l.geometry.ewkb, l.geometry.nonEmpty, h.small l hl⟩, rfl, rfl⟩

/-- A region that fits has a payload exactly when its alphas descend and it has an SRID, unless it
is empty. -/
theorem Fits.exists_stores_iff {value : DomainFuzzyregion} (h : Fits value) :
    (∃ stored, Stores value stored) ↔ (value.levels ≠ [] → value.srid ≠ none) ∧
      value.levels.Pairwise fun higher lower => lower.alpha < higher.alpha := by
  constructor
  · rintro ⟨stored, hstores⟩
    obtain ⟨hpresent, -, hchain⟩ := validateLevels_eq_ok_iff.mp stored.valid
    rw [ne_nil_iff hstores.levels, hstores.srid] at hpresent
    rw [Descending.isChain_iff_pairwise] at hchain
    exact ⟨hpresent, (pairwise_alpha_iff (fun x y => y < x) hstores.levels).mp hchain⟩
  · rintro ⟨hpresent, hdesc⟩
    obtain ⟨levels, hlevels⟩ := h.exists_levels
    have hvalid : validateLevels value.srid levels = .ok () :=
      validateLevels_eq_ok_iff.mpr ⟨fun hne => hpresent ((ne_nil_iff hlevels).mp hne),
        hlevels.length_eq ▸ h.count,
        ((pairwise_alpha_iff (fun x y => y < x) hlevels).mpr hdesc).isChain⟩
    exact ⟨⟨currentStorageVersion, value.srid, levels, hvalid⟩, rfl, hlevels⟩

/-- A canonical region whose level count and byte lengths fit has a payload. -/
theorem exists_stores {value : DomainFuzzyregion} {engine : PostgisEngine P S}
    (hv : Fuzzyregion.Canonical engine value) (hfits : Fits value) :
    ∃ stored, Stores value stored :=
  hfits.exists_stores_iff.mpr ⟨hv.srid_ne_none, hv.descending⟩

/-! ## Refused regions -/

/-- A level count or a byte length beyond its field. -/
inductive ExceedsLimit : StorageError → Prop where
  | levels {count : Nat} (h : u32Max < count) : ExceedsLimit (.tooManyLevels count)
  | ewkb {alpha : Alpha F64} {len : Nat} (h : u32Max < len) : ExceedsLimit (.ewkbTooLarge alpha len)

/-- What is wrong with a region that the storage refuses with an error. -/
inductive RefusedBy (value : DomainFuzzyregion) : StorageError → Prop where
  | limit {error : StorageError} (hlimit : ExceedsLimit error) (hfits : ¬ Fits value) :
      RefusedBy value error
  | missingSrid (hne : value.levels ≠ []) (hnone : value.srid = none) :
      RefusedBy value .missingSridForNonEmptyPayload
  | duplicate {a : Alpha F64}
      (hnot : ¬ value.levels.Pairwise fun higher lower => lower.alpha < higher.alpha) :
      RefusedBy value (.duplicateAlpha a)
  | outOfOrder {a b : Alpha F64}
      (hnot : ¬ value.levels.Pairwise fun higher lower => lower.alpha ≤ higher.alpha) :
      RefusedBy value (.levelsOutOfOrder a b)

/-- A geometry has bytes, so a level is refused for having too many. -/
theorem refusedBy_of_level {value : DomainFuzzyregion} {l : Level F64 PostgisGeometry}
    {error : StorageError} (hl : l ∈ value.levels)
    (h : StoredLevel.new l.alpha l.geometry.ewkb = .error error) : RefusedBy value error := by
  unfold StoredLevel.new at h
  split_ifs at h with hempty hlarge
  · exact absurd hempty l.geometry.nonEmpty
  · obtain rfl := Except.error.inj h
    exact .limit (.ewkb hlarge) fun hfits => Nat.not_le_of_lt hlarge (hfits.small l hl)

/-- A level list is refused for what is wrong with the levels of the region. -/
theorem refusedBy_of_levels {value : DomainFuzzyregion} {levels : List StoredLevel}
    {error : StorageError} (hlevels : List.Forall₂ StoresLevel value.levels levels)
    (h : validateLevels value.srid levels = .error error) : RefusedBy value error := by
  rcases validateLevels_eq_error h with ⟨hne, hnone, rfl⟩ | ⟨hcount, rfl⟩ |
    ⟨pair, hpair, ⟨heq, rfl⟩ | ⟨hlt, rfl⟩⟩
  · exact .missingSrid ((ne_nil_iff hlevels).mp hne) hnone
  · exact .limit (.levels hcount) fun hfits =>
      Nat.not_le_of_lt hcount (hlevels.length_eq ▸ hfits.count)
  · refine .duplicate fun hdesc => ?_
    have hchain := ((pairwise_alpha_iff (fun x y => y < x) hlevels).mpr hdesc).isChain
    exact (rel_of_mem_windows hchain hpair).ne heq.symm
  · refine .outOfOrder fun hdesc => ?_
    have hchain := ((pairwise_alpha_iff (fun x y => y ≤ x) hlevels).mpr hdesc).isChain
    exact (rel_of_mem_windows hchain hpair).not_gt hlt

/-- The storage refuses a region for a reason, and names it. -/
theorem encodeDomainFuzzyregion_errorsIn (value : DomainFuzzyregion) :
    ErrorsIn (fun error => ∃ e, error = .storage e ∧ RefusedBy value e)
      (encodeDomainFuzzyregion value : Except (PostgisError S) StoredFuzzyregion) := by
  intro error h
  rw [encodeDomainFuzzyregion, bind_eq_error_iff] at h
  rcases h with h | ⟨levels, hlevels, h⟩
  · obtain ⟨l, hl, hnew⟩ := exists_of_mapM_eq_error h
    obtain ⟨e, he, rfl⟩ := mapError_eq_error_iff.mp hnew
    exact ⟨e, rfl, refusedBy_of_level hl he⟩
  · obtain ⟨e, he, rfl⟩ := mapError_eq_error_iff.mp h
    exact ⟨e, rfl, refusedBy_of_levels (storeLevels_eq_ok_iff.mp hlevels) (withVersion_eq_error he)⟩

end FuzzyRegion
