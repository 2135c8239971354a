import FuzzyRegion.Core.Denotation
import FuzzyRegion.Pg.Refusals

/-!
# The constructor

The arrays that the constructor accepts are those of well-formed level lists, in any order. The
value that it returns grades every point by the highest alpha whose geometry covers the point, and
nothing but a limit of the storage keeps a well-formed list from being stored. Every other error
names the first defect of the arrays: of their lengths, then of an element, then of the levels.

## Main definitions

* `alphaElements`, `geometryElements`: the arrays of a level list
* `elementLevels`: the levels of two arrays
* `ElementDefect`, `ArrayDefect`: what an error of the constructor names

## Main results

* `fuzzyregionFromEwkb_elements`: the constructor on the arrays of a level list
* `fromEwkb_describes`: which arrays it accepts, what it returns, and that the order is of no
  importance
* `fromEwkb_refuses`: which arrays it refuses, and for what
-/

namespace FuzzyRegion

open Numeric Fallible LevelStack Fuzzyregion SqlFuzzyregion

variable {P S : Type}

/-! ## Elements -/

/-- The alphas of a level list, as an array. -/
def alphaElements (raw : List (Level F64 PostgisGeometry)) : List (Option F64) :=
  raw.map fun l => some l.alpha.value

/-- The geometries of a level list, as an array. -/
def geometryElements (raw : List (Level F64 PostgisGeometry)) : List (Option (List UInt8)) :=
  raw.map fun l => some l.geometry.ewkb

/-- The levels of the elements that are not refused. -/
def elementLevels (alphas : List (Option F64)) (geoms : List (Option (List UInt8))) :
    List (Level F64 PostgisGeometry) :=
  (alphas.zip geoms).filterMap fun (alpha, ewkb) =>
    (levelOfElements (S := Empty) 0 alpha ewkb).toOption

theorem fromEwkb_eq_ok_iff {ewkb : List UInt8} {g : PostgisGeometry} :
    PostgisGeometry.fromEwkb (S := S) ewkb = .ok g ↔ ewkb = g.ewkb := by
  constructor
  · intro h
    unfold PostgisGeometry.fromEwkb at h
    split_ifs at h
    exact congrArg PostgisGeometry.ewkb (Except.ok.inj h)
  · rintro rfl
    exact PostgisGeometry.fromEwkb_ewkb g

/-- Two elements are those of a level when they hold its alpha and its bytes. -/
theorem levelOfElements_eq_ok_iff {index : Nat} {alpha : Option F64} {ewkb : Option (List UInt8)}
    {l : Level F64 PostgisGeometry} :
    levelOfElements index alpha ewkb = (.ok l : Except (ApiError S) _) ↔
      alpha = some l.alpha.value ∧ ewkb = some l.geometry.ewkb := by
  cases alpha with
  | none => simp [levelOfElements]
  | some alpha =>
    cases ewkb with
    | none =>
      cases htry : Alpha.tryFrom alpha <;> simp [levelOfElements, htry]
    | some ewkb =>
      simp only [levelOfElements, ok_bind, bind_eq_ok_iff, mapError_eq_ok_iff, fromEwkb_eq_ok_iff,
        pure_eq_ok_iff, Option.some.injEq]
      constructor
      · rintro ⟨a, ha, g, rfl, rfl⟩
        exact ⟨(Alpha.value_of_tryFrom ha).symm, rfl⟩
      · rintro ⟨rfl, rfl⟩
        exact ⟨l.alpha, Alpha.tryFrom_value l.alpha, l.geometry, rfl, rfl⟩

/-- The two elements of a level. -/
def elementPair (l : Level F64 PostgisGeometry) : Option F64 × Option (List UInt8) :=
  (some l.alpha.value, some l.geometry.ewkb)

theorem mapM_levelOfElements_eq_ok_iff {pairs : List (Option F64 × Option (List UInt8))}
    {raw : List (Level F64 PostgisGeometry)} :
    (pairs.zipIdx.mapM fun ((alpha, ewkb), index) => levelOfElements index alpha ewkb) =
      (.ok raw : Except (ApiError S) _) ↔ pairs = raw.map elementPair := by
  rw [mapM_eq_ok_iff, ← List.forall₂_eq_eq_eq, List.forall₂_map_right_iff]
  conv_rhs => rw [← List.zipIdx_map_fst 0 pairs, List.forall₂_map_left_iff]
  simp only [levelOfElements_eq_ok_iff, elementPair, Prod.ext_iff]

/-- Arrays of one length are the elements of the levels that they describe. -/
theorem zip_eq_map_elementPair_iff {alphas : List (Option F64)}
    {geoms : List (Option (List UInt8))} (hlen : alphas.length = geoms.length)
    {raw : List (Level F64 PostgisGeometry)} :
    alphas.zip geoms = raw.map elementPair ↔
      alphas = alphaElements raw ∧ geoms = geometryElements raw := by
  constructor
  · intro h
    have hfst := List.map_fst_zip hlen.le
    have hsnd := List.map_snd_zip hlen.ge
    rw [h, List.map_map] at hfst hsnd
    exact ⟨hfst.symm, hsnd.symm⟩
  · rintro ⟨rfl, rfl⟩
    exact List.zip_map'

theorem elementLevels_elements (raw : List (Level F64 PostgisGeometry)) :
    elementLevels (alphaElements raw) (geometryElements raw) = raw := by
  rw [elementLevels, alphaElements, geometryElements, List.zip_map', List.filterMap_map]
  refine (List.filterMap_congr fun l _ => ?_).trans List.filterMap_some
  show (levelOfElements (S := Empty) 0 _ _).toOption = some l
  rw [levelOfElements_eq_ok_iff.mpr ⟨rfl, rfl⟩]
  rfl

/-- A level list is determined by its arrays. -/
theorem eq_of_elements {raw raw' : List (Level F64 PostgisGeometry)}
    (halphas : alphaElements raw = alphaElements raw')
    (hgeoms : geometryElements raw = geometryElements raw') : raw = raw' := by
  rw [← elementLevels_elements raw, halphas, hgeoms, elementLevels_elements]

/-! ## The call -/

section

variable {engine : PostgisEngine P S}

/-- The constructor on the arrays of a level list. -/
theorem fuzzyregionFromEwkb_elements (raw : List (Level F64 PostgisGeometry)) :
    fuzzyregionFromEwkb engine (alphaElements raw) (geometryElements raw) =
      (fromLevels raw engine).mapError ApiError.core >>= fun domain =>
        (fromDomain domain).mapError .postgis := by
  have hlen : (alphaElements raw).length = (geometryElements raw).length := by
    rw [alphaElements, geometryElements, List.length_map, List.length_map]
  rw [fuzzyregionFromEwkb, if_neg (not_not.mpr hlen), mapM_levelOfElements_eq_ok_iff.mpr
    ((zip_eq_map_elementPair_iff hlen).mpr ⟨rfl, rfl⟩), ok_bind]

/-- The arrays that are accepted are those of a level list. -/
theorem exists_elements_of_fromEwkb {alphas : List (Option F64)}
    {geoms : List (Option (List UInt8))} {v : SqlFuzzyregion}
    (h : fuzzyregionFromEwkb engine alphas geoms = .ok v) :
    ∃ raw, alphas = alphaElements raw ∧ geoms = geometryElements raw ∧
      fromLevels raw engine = .ok v.stored.region := by
  have hlen : alphas.length = geoms.length := by
    by_contra hne
    rw [fuzzyregionFromEwkb, if_pos hne] at h
    cases h
  obtain ⟨raw, d, hraw, hd, hstores⟩ := fuzzyregionFromEwkb_eq_ok h
  obtain ⟨halphas, hgeoms⟩ := (zip_eq_map_elementPair_iff hlen).mp
    (mapM_levelOfElements_eq_ok_iff.mp hraw)
  exact ⟨raw, halphas, hgeoms, region_of_stores hstores ▸ hd⟩

end

section

variable {e : PointSetEngine PostgisGeometry P}

/-- The value that the constructor returns has the meaning of its arrays. -/
theorem meaning_of_fromEwkb {alphas : List (Option F64)} {geoms : List (Option (List UInt8))}
    {v : SqlFuzzyregion}
    (h : fuzzyregionFromEwkb (e.engine (PostgisError S)) alphas geoms = .ok v) :
    v.stored.region.meaning e.toRegularizedEngine =
      .ofStack (e.stack (elementLevels alphas geoms)) := by
  obtain ⟨raw, rfl, rfl, hraw⟩ := exists_elements_of_fromEwkb h
  rw [elementLevels_elements]
  exact meaning_of_canonicalize hraw

/-- The arrays of a well-formed level list are accepted, up to the limits of the storage. -/
theorem exists_fromEwkb_of_wellFormed {raw : List (Level F64 PostgisGeometry)}
    (hwell : WellFormed e.toCrispEngine raw) :
    (∃ v, fuzzyregionFromEwkb (e.engine (PostgisError S)) (alphaElements raw)
      (geometryElements raw) = .ok v) ∨
    ∃ error, ExceedsLimit error ∧ fuzzyregionFromEwkb (e.engine (PostgisError S))
      (alphaElements raw) (geometryElements raw) = .error (.postgis (.storage error)) := by
  obtain ⟨d, hd⟩ := exists_fromLevels_iff (E := PostgisError S).mpr hwell
  rw [fuzzyregionFromEwkb_elements, hd, mapError_ok, ok_bind]
  rcases exists_fromDomain_or_limit (canonicalize_canonical hd) with ⟨v, hv⟩ | ⟨error, herror, hrun⟩
  · exact Or.inl ⟨v, by rw [hv, mapError_ok]⟩
  · exact Or.inr ⟨error, herror, by rw [hrun, Except.mapError]⟩

/-- The order of the elements does not matter. -/
theorem fromEwkb_of_perm {raw raw' : List (Level F64 PostgisGeometry)} (hperm : raw.Perm raw')
    {v : SqlFuzzyregion}
    (h : fuzzyregionFromEwkb (e.engine (PostgisError S)) (alphaElements raw)
      (geometryElements raw) = .ok v) :
    fuzzyregionFromEwkb (e.engine (PostgisError S)) (alphaElements raw')
      (geometryElements raw') = .ok v := by
  obtain ⟨_, halphas, hgeoms, hraw⟩ := exists_elements_of_fromEwkb h
  obtain rfl := eq_of_elements halphas hgeoms
  rw [fuzzyregionFromEwkb_elements] at h
  rwa [fuzzyregionFromEwkb_elements, ← fromLevels_eq_of_perm hperm (live_of_fromLevels hraw)]

end

/-! ## Refusals -/

/-- What is wrong with the two elements at an index. The alpha is looked at before the geometry. -/
inductive ElementDefect (index : Nat) : Option F64 → Option (List UInt8) → ApiError S → Prop where
  | nullAlpha {ewkb : Option (List UInt8)} :
      ElementDefect index none ewkb (.nullAlphaElement index)
  | notFinite {alpha : F64} {ewkb : Option (List UInt8)} (hf : Scalar.isFinite alpha = false) :
      ElementDefect index (some alpha) ewkb (.invalidAlpha (.notFinite alpha))
  | outOfRange {alpha : F64} {ewkb : Option (List UInt8)} (hf : Scalar.isFinite alpha = true)
      (hrange : ¬ (0 < LawfulScalar.toRat alpha ∧ LawfulScalar.toRat alpha ≤ 1)) :
      ElementDefect index (some alpha) ewkb (.invalidAlpha (.levelOutOfRange alpha))
  | nullGeometry {alpha : Alpha F64} :
      ElementDefect index (some alpha.value) none (.nullGeometryElement index)
  | noBytes {alpha : Alpha F64} :
      ElementDefect index (some alpha.value) (some []) (.postgis .emptyGeometryBytes)

/-- An error of reading two elements is a defect of theirs. -/
theorem elementDefect_of_levelOfElements {index : Nat} {alpha : Option F64}
    {ewkb : Option (List UInt8)} {error : ApiError S}
    (h : levelOfElements index alpha ewkb = .error error) :
    ElementDefect index alpha ewkb error := by
  cases alpha with
  | none =>
    obtain rfl := Except.error.inj h
    exact .nullAlpha
  | some alpha =>
    simp only [levelOfElements, ok_bind] at h
    -- the geometry is only looked at when the alpha is valid
    rcases bind_eq_error_iff.mp h with halpha | ⟨a, ha, hewkb⟩
    · obtain ⟨found, hfound, rfl⟩ := mapError_eq_error_iff.mp halpha
      rcases Alpha.tryFrom_eq_error_iff.mp hfound with ⟨hf, rfl⟩ | ⟨hf, hrange, rfl⟩
      · exact .notFinite hf
      · exact .outOfRange hf hrange
    · obtain rfl := Alpha.value_of_tryFrom (mapError_eq_ok_iff.mp ha)
      cases ewkb with
      | none =>
        obtain rfl := Except.error.inj hewkb
        exact .nullGeometry
      | some ewkb =>
        cases ewkb with
        | nil =>
          obtain rfl := Except.error.inj hewkb
          exact .noBytes
        | cons b bytes => cases hewkb

/-- Two elements with a defect are refused for it. -/
theorem ElementDefect.levelOfElements_eq {index : Nat} {alpha : Option F64}
    {ewkb : Option (List UInt8)} {error : ApiError S} (h : ElementDefect index alpha ewkb error) :
    levelOfElements index alpha ewkb = .error error := by
  cases h with
  | nullAlpha => rfl
  | notFinite hf =>
    have hfound := Alpha.tryFrom_eq_error_iff.mpr (Or.inl ⟨hf, rfl⟩)
    simp only [levelOfElements, ok_bind, hfound]
    rfl
  | outOfRange hf hrange =>
    have hfound := Alpha.tryFrom_eq_error_iff.mpr (Or.inr ⟨hf, hrange, rfl⟩)
    simp only [levelOfElements, ok_bind, hfound]
    rfl
  | nullGeometry =>
    simp only [levelOfElements, ok_bind, Alpha.tryFrom_value, mapError_ok]
    rfl
  | noBytes =>
    simp only [levelOfElements, ok_bind, Alpha.tryFrom_value, mapError_ok]
    rfl

/-- What is wrong with two arrays, where every element before the defect is that of a level. -/
inductive ArrayDefect (c : CrispEngine PostgisGeometry P) (alphas : List (Option F64))
    (geoms : List (Option (List UInt8))) : ApiError S → Prop where
  | lengths (hlen : alphas.length ≠ geoms.length) :
      ArrayDefect c alphas geoms (.mismatchedLevelCount alphas.length geoms.length)
  | element {before : List (Level F64 PostgisGeometry)} {alpha : Option F64}
      {ewkb : Option (List UInt8)} {alphas' : List (Option F64)}
      {geoms' : List (Option (List UInt8))} {error : ApiError S}
      (hlen : alphas.length = geoms.length)
      (halphas : alphas = alphaElements before ++ alpha :: alphas')
      (hgeoms : geoms = geometryElements before ++ ewkb :: geoms')
      (hdefect : ElementDefect before.length alpha ewkb error) : ArrayDefect c alphas geoms error
  | levels {raw : List (Level F64 PostgisGeometry)} {error : CoreError F64 (PostgisError S)}
      (halphas : alphas = alphaElements raw) (hgeoms : geoms = geometryElements raw)
      (hrefused : Refused c raw error) : ArrayDefect c alphas geoms (.core error)

/-- The elements of two arrays are read up to the first defect. -/
theorem exists_defect_of_mapM {alphas : List (Option F64)} {geoms : List (Option (List UInt8))}
    (hlen : alphas.length = geoms.length) {error : ApiError S}
    (h : ((alphas.zip geoms).zipIdx.mapM fun ((alpha, ewkb), index) =>
      levelOfElements index alpha ewkb) = .error error) (c : CrispEngine PostgisGeometry P) :
    ArrayDefect c alphas geoms error := by
  obtain ⟨pre, _, post, before, hzip, hbefore, hdefect⟩ := mapM_eq_error_iff.mp h
  obtain ⟨pairs, rest, hpairs, rfl, hrest⟩ := List.zipIdx_eq_append_iff.mp hzip
  obtain ⟨⟨alpha, ewkb⟩, rest, rfl, rfl, -⟩ := List.zipIdx_eq_cons_iff.mp hrest.symm
  obtain rfl := mapM_levelOfElements_eq_ok_iff.mp hbefore
  have hfst := List.map_fst_zip hlen.le
  have hsnd := List.map_snd_zip hlen.ge
  rw [hpairs, List.map_append, List.map_map, List.map_cons] at hfst hsnd
  rw [Nat.zero_add, List.length_map] at hdefect
  exact .element hlen hfst.symm hsnd.symm (elementDefect_of_levelOfElements hdefect)

/-- An element with a defect is not that of a level. -/
theorem ElementDefect.ne_elements {index : Nat} {alpha : Option F64} {ewkb : Option (List UInt8)}
    {error : ApiError S} (h : ElementDefect index alpha ewkb error)
    (l : Level F64 PostgisGeometry) : (alpha, ewkb) ≠ elementPair l := by
  intro heq
  have hok : (levelOfElements index alpha ewkb : Except (ApiError S) _) = .ok l :=
    levelOfElements_eq_ok_iff.mpr (Prod.ext_iff.mp heq)
  rw [h.levelOfElements_eq] at hok
  cases hok

/-- The element that follows a mapped list is at the index of its length. -/
theorem getElem?_map_append_cons {α β : Type} {f : α → β} {before : List α} {b : β}
    {rest : List β} : (before.map f ++ b :: rest)[before.length]? = some b := by
  rw [List.getElem?_append_right (List.length_map _).le, List.length_map, Nat.sub_self,
    List.getElem?_cons_zero]

section

variable {e : RegularizedEngine PostgisGeometry P}

/-- Arrays with a defect are not accepted. -/
theorem ArrayDefect.refused {alphas : List (Option F64)} {geoms : List (Option (List UInt8))}
    {error : ApiError S} (h : ArrayDefect e.toCrispEngine alphas geoms error) (v : SqlFuzzyregion) :
    fuzzyregionFromEwkb (e.engine (PostgisError S)) alphas geoms ≠ .ok v := by
  intro hok
  obtain ⟨raw, rfl, rfl, hraw⟩ := exists_elements_of_fromEwkb hok
  have hwell := wellFormed_of_fromLevels hraw
  cases h with
  | lengths hlen =>
    rw [alphaElements, geometryElements, List.length_map, List.length_map] at hlen
    exact hlen rfl
  | @element before alpha ewkb _ _ _ hlen halphas hgeoms hdefect =>
    -- the elements with the defect are those of the level at their index
    have halpha : (alphaElements raw)[before.length]? = some alpha :=
      halphas ▸ getElem?_map_append_cons
    have hgeom : (geometryElements raw)[before.length]? = some ewkb :=
      hgeoms ▸ getElem?_map_append_cons
    rw [alphaElements, List.getElem?_map, Option.map_eq_some_iff] at halpha
    obtain ⟨l, hl, rfl⟩ := halpha
    rw [geometryElements, List.getElem?_map, hl, Option.map_some, Option.some.injEq] at hgeom
    exact hdefect.ne_elements l (Prod.ext rfl hgeom.symm)
  | levels halphas hgeoms hrefused =>
    obtain rfl := eq_of_elements halphas hgeoms
    exact hrefused.not_wellFormed hwell

variable (S e) in
/-- **The constructor refuses the arrays that have a defect** when the database answers every query,
and its error names the first one; an error of the storage names a limit. -/
theorem fromEwkb_refuses (alphas : List (Option F64)) (geoms : List (Option (List UInt8))) :
    (∀ error, fuzzyregionFromEwkb (e.engine (PostgisError S)) alphas geoms = .error error →
      ArrayDefect e.toCrispEngine alphas geoms error ∨
      ∃ limit, ExceedsLimit limit ∧ error = .postgis (.storage limit)) ∧
    ∀ error : ApiError S, ArrayDefect e.toCrispEngine alphas geoms error → ∀ v,
      fuzzyregionFromEwkb (e.engine (PostgisError S)) alphas geoms ≠ .ok v := by
  refine ⟨fun error h => ?_, fun error h => h.refused⟩
  by_cases hlen : alphas.length = geoms.length
  · rw [fuzzyregionFromEwkb, if_neg (not_not.mpr hlen)] at h
    rcases bind_eq_error_iff.mp h with h | ⟨raw, hraw, h⟩
    · exact Or.inl (exists_defect_of_mapM hlen h _)
    · obtain ⟨halphas, hgeoms⟩ := (zip_eq_map_elementPair_iff hlen).mp
        (mapM_levelOfElements_eq_ok_iff.mp hraw)
      rcases bind_eq_error_iff.mp h with h | ⟨d, hd, h⟩
      · obtain ⟨found, hfound, rfl⟩ := mapError_eq_error_iff.mp h
        exact Or.inl (.levels halphas hgeoms (refused_of_fromLevels hfound))
      · have hcanonical := canonicalize_canonical (mapError_eq_ok_iff.mp hd)
        exact Or.inr (exists_limit_of_fromDomain hcanonical h)
  · rw [fuzzyregionFromEwkb, if_pos hlen] at h
    obtain rfl := Except.error.inj h
    exact Or.inl (.lengths hlen)

end

end FuzzyRegion
