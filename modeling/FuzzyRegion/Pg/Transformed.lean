import FuzzyRegion.Core.Powers
import FuzzyRegion.Pg.Lossless

/-!
# Storing transformed regions

A membership transform skips canonicalization, so a rounding that merges two alphas is first
noticed by the storage, which refuses equal neighbours. Each transform keeps the canonical form, and
the result can be stored, exactly when middles between data separate the exact images of neighbouring
alphas.

## Main definitions

* `SameAlphas r w`: the region `w` of the extension has the SRID and the alphas of `r`

## Main results

* `encode_ne_duplicateAlpha`, `exists_encode_eq_duplicateAlpha`: when the storage refuses a
  duplicate alpha
* `normalizeMembership_distinct_iff`, `powerTransform_distinct_iff`: when a transform keeps the
  alphas distinct
* `normalize_terraces_duplicates`, `concentrate_embers_duplicates`: regions that lose a level
-/

namespace FuzzyRegion

open Numeric Fallible Fuzzyregion StoredFuzzyregion

variable {G P E S ε : Type} {w : DomainFuzzyregion}

/-! ## Refused payloads -/

/-- Descending alphas are not refused as duplicates. -/
theorem encode_ne_duplicateAlpha
    (hdesc : w.levels.Pairwise fun higher lower => lower.alpha < higher.alpha) (a : Alpha F64) :
    encodeDomainFuzzyregion w ≠ (.error (.storage (.duplicateAlpha a)) :
      Except (PostgisError S) _) := by
  intro h
  obtain ⟨e, he, hrefused⟩ := encodeDomainFuzzyregion_errorsIn w _ h
  obtain rfl := PostgisError.storage.inj he
  cases hrefused with
  | limit hlimit _ => cases hlimit
  | duplicate hnot => exact hnot hdesc

/-- Alphas that descend, but not strictly, are refused as duplicates. -/
theorem exists_encode_eq_duplicateAlpha (hfits : Fits w) (hsrid : w.levels ≠ [] → w.srid ≠ none)
    (hle : w.levels.Pairwise fun higher lower => lower.alpha ≤ higher.alpha)
    (hnot : ¬ w.levels.Pairwise fun higher lower => lower.alpha < higher.alpha) :
    ∃ a, encodeDomainFuzzyregion w = (.error (.storage (.duplicateAlpha a)) :
      Except (PostgisError S) _) := by
  cases hrun : encodeDomainFuzzyregion (S := S) w with
  | ok stored =>
    have hstores := encodeDomainFuzzyregion_eq_ok_iff.mp hrun
    exact absurd (hfits.exists_stores_iff.mp ⟨stored, hstores⟩).2 hnot
  | error error =>
    obtain ⟨e, rfl, hrefused⟩ := encodeDomainFuzzyregion_errorsIn w _ hrun
    cases hrefused with
    | limit _ hbeyond => exact absurd hfits hbeyond
    | missingSrid hne hnone => exact absurd hnone (hsrid hne)
    | duplicate _ => exact ⟨_, rfl⟩
    | outOfOrder hascent => exact absurd hle hascent

/-! ## Transformed regions -/

/-- A region of the extension with the SRID and the alphas of a region, such as that region itself
when it is one of the extension. -/
structure SameAlphas (r : Fuzzyregion F64 G) (w : DomainFuzzyregion) : Prop where
  srid : w.srid = r.srid
  alphas : w.levels.map Level.alpha = r.levels.map Level.alpha

theorem SameAlphas.pairwise_iff {r : Fuzzyregion F64 G} (h : SameAlphas r w)
    (R : Alpha F64 → Alpha F64 → Prop) :
    (w.levels.Pairwise fun l m => R l.alpha m.alpha) ↔
      r.levels.Pairwise fun l m => R l.alpha m.alpha := by
  rw [← List.pairwise_map, h.alphas, List.pairwise_map]

/-- A remapped canonical region with levels has an SRID. -/
theorem SameAlphas.srid_ne_none {engine : GeometryEngine G P E} {v r : Fuzzyregion F64 G}
    (h : SameAlphas r w) (hr : Remapped v r) (hv : Canonical engine v) (hne : w.levels ≠ []) :
    w.srid ≠ none := by
  have hlength : w.levels.length = v.levels.length := by
    have halphas := congrArg List.length h.alphas
    have hgeometries := congrArg List.length hr.geometries
    simp only [List.length_map] at halphas hgeometries
    exact halphas.trans hgeometries
  rw [h.srid, hr.srid]
  apply hv.srid_ne_none
  rwa [← List.length_pos_iff, ← hlength, List.length_pos_iff]

/-- **When normalization keeps the alphas distinct**: it returns a region with the same geometries,
whose alphas descend, so that storing it is never refused for a duplicate alpha, exactly when middles
separate the exact quotients of neighbouring alphas and the maximum. Otherwise storing it is refused
for one. -/
theorem normalizeMembership_distinct_iff {engine : GeometryEngine G P E} {v : Fuzzyregion F64 G}
    (hv : Canonical engine v) :
    ∃ r, v.normalizeMembership = (.ok r : Outcome ε _) ∧ Remapped v r ∧
      (((r.levels.Pairwise fun higher lower => lower.alpha < higher.alpha) ∧
          ∀ w, SameAlphas r w → ∀ a, encodeDomainFuzzyregion w ≠
            (.error (.storage (.duplicateAlpha a)) : Except (PostgisError S) _)) ↔
        ∀ max, v.maxAlpha = some max → Separated (quotient max) v) ∧
      ((¬ ∀ max, v.maxAlpha = some max → Separated (quotient max) v) →
        ∀ w, SameAlphas r w → Fits w → ∃ a, encodeDomainFuzzyregion w =
          (.error (.storage (.duplicateAlpha a)) : Except (PostgisError S) _)) := by
  obtain ⟨r, hr, hremapped, hle, hdesc⟩ := normalizeMembership_descending_iff (ε := ε) hv
  refine ⟨r, hr, hremapped, ?_, ?_⟩
  · rw [← hdesc]
    refine and_iff_left_of_imp fun h w hw a => ?_
    exact encode_ne_duplicateAlpha ((hw.pairwise_iff fun x y => y < x).mpr h) a
  · intro hnot w hw hfits
    rw [← hdesc, ← hw.pairwise_iff fun x y => y < x] at hnot
    exact exists_encode_eq_duplicateAlpha hfits (hw.srid_ne_none hremapped hv)
      ((hw.pairwise_iff fun x y => y ≤ x).mpr hle) hnot

/-- Two nested regions, at three quarters and one eighth. -/
def penumbra : DomainFuzzyregion where
  srid := some 4326
  levels := [⟨binaryAlpha 0x3FE8000000000000 (by decide), .ofCells [1]⟩,
    ⟨binaryAlpha 0x3FC0000000000000 (by decide), .ofCells [1, 2]⟩]

theorem canonicalize_penumbra :
    canonicalize ⟨penumbra.levels⟩ (byteEngine.engine (PostgisError Empty)) = .ok penumbra := by
  decide +kernel

/-- The quotient of the lower alpha is one sixth, and is rounded; one half is between it and the
quotient of the upper one. -/
theorem normalizeMembership_distinct_iff_penumbra :
    ∃ r, penumbra.normalizeMembership = (.ok r : Outcome Empty _) ∧
      (r.levels.Pairwise fun higher lower => lower.alpha < higher.alpha) ∧
      ∀ w, SameAlphas r w → ∀ a, encodeDomainFuzzyregion w ≠
        (.error (.storage (.duplicateAlpha a)) : Except (PostgisError Empty) _) := by
  obtain ⟨r, hr, -, hiff, -⟩ :=
    normalizeMembership_distinct_iff (canonicalize_canonical canonicalize_penumbra)
  refine ⟨r, hr, hiff.mpr fun max hmax => .cons_cons ?_ (.singleton _)⟩
  obtain rfl := Option.some.inj hmax
  exact Alpha.separated_of_le (a := binaryAlpha 0x3FE0000000000000 (by decide)) (b := Alpha.one)
    (by decide +kernel) (by decide +kernel) (by decide +kernel) (by decide +kernel)

/-- Three terraces; the alphas of the lower two differ in the last bit. -/
def terraces : DomainFuzzyregion where
  srid := some 4326
  levels := [⟨binaryAlpha 0x3FE8000000000000 (by decide), .ofCells [1]⟩,
    ⟨binaryAlpha 0x3FD8000000000002 (by decide), .ofCells [1, 2]⟩,
    ⟨binaryAlpha 0x3FD8000000000001 (by decide), .ofCells [1, 2, 3]⟩]

/-- The terraces with alphas divided by the maximum. -/
def flattened : DomainFuzzyregion where
  srid := some 4326
  levels := [⟨Alpha.one, .ofCells [1]⟩,
    ⟨binaryAlpha 0x3FE0000000000001 (by decide), .ofCells [1, 2]⟩,
    ⟨binaryAlpha 0x3FE0000000000001 (by decide), .ofCells [1, 2, 3]⟩]

theorem canonicalize_terraces :
    canonicalize ⟨terraces.levels⟩ (byteEngine.engine (PostgisError Empty)) = .ok terraces := by
  decide +kernel

/-- The lower two terraces are divided into a coarser binade, where their quotients round to one
datum. The storage refuses the result. -/
theorem normalize_terraces_duplicates :
    Canonical (byteEngine.engine (PostgisError Empty)) terraces ∧
    terraces.normalizeMembership = (.ok flattened : Outcome Empty _) ∧
    (¬ flattened.levels.Pairwise fun higher lower => lower.alpha < higher.alpha) ∧
    encodeDomainFuzzyregion flattened =
      (.error (.storage (.duplicateAlpha (binaryAlpha 0x3FE0000000000001 (by decide)))) :
        Except (PostgisError Empty) _) := by
  refine ⟨canonicalize_canonical canonicalize_terraces, ?_, ?_, ?_⟩
  · decide +kernel
  · decide +kernel
  · decide +kernel

/-! ## Powers -/

/-- **When a power transform keeps the alphas distinct**: the result has the geometries in their
order. Its alphas descend, it is canonical and it can be stored exactly when middles separate the
exact powers of neighbouring alphas. -/
theorem powerTransform_distinct_iff {powf : F64 → F64 → F64} (hpowf : F64.CorrectlyRounded powf)
    (t : PowerTransform) {engine : GeometryEngine G P E} {v r : Fuzzyregion F64 G} {power : F64}
    (hv : Canonical engine v) (hrun : t.run powf v power = .ok r) :
    Remapped v r ∧
    ((r.levels.Pairwise fun higher lower => lower.alpha < higher.alpha) ↔
      Separated (fun a => (a.toRat : ℝ) ^ ((t.exponent power).toRat : ℝ)) v) ∧
    (Canonical engine r ↔
      Separated (fun a => (a.toRat : ℝ) ^ ((t.exponent power).toRat : ℝ)) v) ∧
    ∀ w, SameAlphas r w → Fits w →
      ((∃ stored, encodeDomainFuzzyregion w = (.ok stored : Except (PostgisError S) _)) ↔
        Separated (fun a => (a.toRat : ℝ) ^ ((t.exponent power).toRat : ℝ)) v) := by
  obtain ⟨hvalid, himage⟩ := t.image_of_run hpowf hrun
  have hunit : InUnit (powerOf (t.exponent power)) v := t.inUnit_powerOf hvalid
  have hdesc := himage.descending_iff hunit
  refine ⟨himage.toRemapped, hdesc, himage.canonical_iff hunit hv, fun w hw hfits => ?_⟩
  -- a level of the source fixes the SRID of the payload
  have hsrid := hw.srid_ne_none himage.toRemapped hv
  simp only [encodeDomainFuzzyregion_eq_ok_iff]
  rw [hfits.exists_stores_iff, and_iff_right hsrid, hw.pairwise_iff fun x y => y < x]
  exact hdesc

/-- The squares of dyadic alphas. -/
theorem powerOf_two {a : Alpha F64} {c k : ℕ} (ha : a.toRat = c / 2 ^ k) :
    powerOf ⟨0x4000000000000000⟩ a = (c ^ 2 : ℕ) / 2 ^ (k * 2) := by
  have htwo : (F64.mk 0x4000000000000000).toRat = (2 : ℕ) := by decide +kernel
  rw [powerOf, ha, htwo, Rat.cast_natCast, Real.rpow_natCast]
  push_cast
  rw [div_pow, ← pow_mul]

theorem square_three_quarters :
    powerOf ⟨0x4000000000000000⟩ (binaryAlpha 0x3FE8000000000000 (by decide)) =
      (3 ^ 2 : ℕ) / 2 ^ (2 * 2) :=
  powerOf_two (by decide +kernel)

theorem square_one_eighth :
    powerOf ⟨0x4000000000000000⟩ (binaryAlpha 0x3FC0000000000000 (by decide)) =
      (1 ^ 2 : ℕ) / 2 ^ (3 * 2) :=
  powerOf_two (by decide +kernel)

/-- The squares of the penumbra do not round to zero. -/
theorem lt_squares_penumbra :
    ∀ l ∈ penumbra.levels, 1 / 2 ^ 1075 < powerOf ⟨0x4000000000000000⟩ l.alpha := by
  have hsmall : (1 : ℝ) / 2 ^ 1075 < 1 / 2 ^ 6 :=
    one_div_lt_one_div_of_lt (by norm_num) (pow_lt_pow_right₀ one_lt_two (by norm_num))
  refine List.forall_mem_cons.mpr ⟨?_, List.forall_mem_singleton.mpr ?_⟩
  · rw [square_three_quarters]
    exact hsmall.trans_le (by norm_num)
  · rw [square_one_eighth]
    exact hsmall.trans_le (by norm_num)

/-- One quarter and one half are between the squares of the penumbra. -/
theorem separated_squares_penumbra : Separated (powerOf ⟨0x4000000000000000⟩) penumbra := by
  have hquarter : (binaryAlpha 0x3FD0000000000000 (by decide)).toRat = 1 / 4 := by decide +kernel
  have hhalf : (binaryAlpha 0x3FE0000000000000 (by decide)).toRat = 1 / 2 := by decide +kernel
  refine .cons_cons (Alpha.separated_of_le (powerOf_mem (by decide +kernel) _).1 ?_
    (show binaryAlpha 0x3FD0000000000000 (by decide) < binaryAlpha 0x3FE0000000000000 (by decide)
      by decide +kernel) ?_) (.singleton _)
  · rw [square_one_eighth, hquarter]
    norm_num
  · rw [square_three_quarters, hhalf]
    norm_num

/-- A region with the geometries of one that fits fits. -/
theorem Fits.of_remapped {v r : DomainFuzzyregion} (hv : Fits v) (h : Remapped v r) : Fits r where
  count := by
    have hlength := congrArg List.length h.geometries
    rw [List.length_map, List.length_map] at hlength
    exact hlength ▸ hv.count
  small l hl := by
    have hmem : l.geometry ∈ v.levels.map Level.geometry :=
      h.geometries ▸ List.mem_map_of_mem hl
    obtain ⟨m, hm, heq⟩ := List.mem_map.mp hmem
    exact heq ▸ hv.small m hm

/-- The squares are nine sixteenths and one sixty-fourth. -/
theorem powerTransform_distinct_iff_penumbra :
    ∃ r, penumbra.concentrateMembership F64.exactPower ⟨0x4000000000000000⟩ = .ok r ∧
      Canonical (byteEngine.engine (PostgisError Empty)) r ∧
      ∃ stored, encodeDomainFuzzyregion r = (.ok stored : Except (PostgisError Empty) _) := by
  obtain ⟨r, hr⟩ := (PowerTransform.concentrate.exists_run_iff F64.correctlyRounded_exactPower
    (by decide)).mpr lt_squares_penumbra
  obtain ⟨hremapped, -, hcanonical, hstores⟩ := powerTransform_distinct_iff (S := Empty)
    F64.correctlyRounded_exactPower .concentrate (canonicalize_canonical canonicalize_penumbra) hr
  have hfits : Fits r := Fits.of_remapped ⟨by decide, by decide⟩ hremapped
  exact ⟨r, hr, hcanonical.mpr separated_squares_penumbra,
    (hstores r ⟨rfl, rfl⟩ hfits).mpr separated_squares_penumbra⟩

/-- Two faint levels, at `2⁻⁵³⁷` and three quarters of it. -/
def embers : DomainFuzzyregion where
  srid := some 4326
  levels := [⟨binaryAlpha 0x1E60000000000000 (by decide), .ofCells [1]⟩,
    ⟨binaryAlpha 0x1E58000000000000 (by decide), .ofCells [1, 2]⟩]

/-- The same levels at the least subnormal. -/
def ashes : DomainFuzzyregion where
  srid := some 4326
  levels := [⟨binaryAlpha 0x0000000000000001 (by decide), .ofCells [1]⟩,
    ⟨binaryAlpha 0x0000000000000001 (by decide), .ofCells [1, 2]⟩]

theorem canonicalize_embers :
    canonicalize ⟨embers.levels⟩ (byteEngine.engine (PostgisError Empty)) = .ok embers := by
  decide +kernel

/-- The alphas whose squares round to the least subnormal. -/
theorem square_eq_least {a : Alpha F64} {c : ℕ} (ha : a.toRat = c / 2 ^ 539) (hlow : 8 < c ^ 2)
    (hhigh : c ^ 2 ≤ 16) :
    F64.exactPower a.value ⟨0x4000000000000000⟩ = .ofMagnitude false 1 := by
  have htwo : (F64.mk 0x4000000000000000).toRat = (2 : ℕ) := by decide +kernel
  have hsquare : powerOf ⟨0x4000000000000000⟩ a = (c ^ 2 : ℕ) / 2 ^ 1078 := powerOf_two ha
  have hpow : (0 : ℝ) < 2 ^ 1078 := pow_pos two_pos _
  have heighth : (1 : ℝ) / 2 ^ 1075 = (8 : ℕ) / 2 ^ 1078 := by
    have height : ((8 : ℕ) : ℝ) = 1 * 2 ^ 3 := by norm_num
    rw [height, pow_add 2 1075 3, mul_div_mul_right _ _ (by positivity)]
  have hquarter : (1 : ℝ) / 2 ^ 1074 = (16 : ℕ) / 2 ^ 1078 := by
    have hsixteen : ((16 : ℕ) : ℝ) = 1 * 2 ^ 4 := by norm_num
    rw [hsixteen, pow_add 2 1074 4, mul_div_mul_right _ _ (by positivity)]
  rw [powf_eq_rounded F64.correctlyRounded_exactPower (by decide) (by rw [htwo]; positivity),
    rounded, F64.round_eq_one]
  · rw [hsquare, heighth]
    exact div_lt_div_of_pos_right (Nat.cast_lt.mpr hlow) hpow
  · rw [hsquare, hquarter]
    exact div_le_div_of_nonneg_right (Nat.cast_le.mpr hhigh) hpow.le

/-- Both squares round to the least subnormal, and the storage refuses the result. -/
theorem concentrate_embers_duplicates :
    Canonical (byteEngine.engine (PostgisError Empty)) embers ∧
    embers.concentrateMembership F64.exactPower ⟨0x4000000000000000⟩ = .ok ashes ∧
    (¬ ashes.levels.Pairwise fun higher lower => lower.alpha < higher.alpha) ∧
    encodeDomainFuzzyregion ashes =
      (.error (.storage (.duplicateAlpha (binaryAlpha 0x0000000000000001 (by decide)))) :
        Except (PostgisError Empty) _) := by
  refine ⟨canonicalize_canonical canonicalize_embers, ?_, ?_, ?_⟩
  · have hfirst : (binaryAlpha 0x1E60000000000000 (by decide)).toRat = (4 : ℕ) / 2 ^ 539 := by
      decide +kernel
    have hsecond : (binaryAlpha 0x1E58000000000000 (by decide)).toRat = (3 : ℕ) / 2 ^ 539 := by
      decide +kernel
    refine (PowerTransform.concentrate.run_of_valid (by decide)).trans
      (remapMembershipValues_eq_ok_iff.mpr ⟨rfl, .cons ⟨?_, rfl⟩ (.cons ⟨?_, rfl⟩ .nil)⟩)
    · exact (square_eq_least hfirst (by norm_num) (by norm_num)).symm
    · exact (square_eq_least hsecond (by norm_num) (by norm_num)).symm
  · decide +kernel
  · decide +kernel

end FuzzyRegion
