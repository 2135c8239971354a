import FuzzyRegion.Core.Membership

/-!
# Remaps of binary64 alphas

A membership transform on binary64 alphas computes an exact image of each alpha in the unit interval
and rounds it once. Whether it returns and whether the alphas still descend are then questions about
the exact images: an image must not round to zero, and the images of neighbouring levels must be
separated by a middle between two data.

## Main definitions

* `Image exact v r`: `r` has the geometries of `v`, and the rounded images of its alphas
* `Fuzzyregion.Separated exact v`: middles separate the images of neighbouring levels

## Main results

* `exists_remapMembershipValues_iff_lt`: a remap returns exactly when no image rounds to zero
* `Image.descending_iff`, `Image.canonical_iff`: when the alphas still descend
-/

namespace FuzzyRegion

open Numeric

variable {K : Type*} [Field K] [LinearOrder K] [IsStrictOrderedRing K] [FloorSemiring K]

namespace Alpha

/-- An alpha has no sign bit. -/
theorem value_eq_ofMagnitude (a : Alpha F64) : a.value = .ofMagnitude false a.value.magnitude := by
  have hm := a.value.magnitude_lt
  apply F64.ext_magnitude
  · rw [F64.isSignNegative_ofMagnitude hm]
    exact F64.isSignNegative_of_toRat_pos a.toRat_pos
  · rw [F64.magnitude_ofMagnitude hm]

theorem toRat_eq_point (a : Alpha F64) : a.toRat = F64.grid.point a.value.magnitude :=
  F64.toRat_eq_point (F64.isSignNegative_of_toRat_pos a.toRat_pos)

/-- The value of an alpha is a grid point, and rounds to itself. -/
theorem round_toRat (a : Alpha F64) :
    (F64.gridOver K).round ((a.toRat : ℚ) : K) = a.value.magnitude := by
  rw [toRat_eq_point, F64.cast_grid_point, Grid.round_point]

/-- Every alpha is above the values that round to zero. -/
theorem lt_toRat (a : Alpha F64) : (1 : K) / 2 ^ 1075 < ((a.toRat : ℚ) : K) := by
  rw [← F64.round_pos_iff (Rat.cast_nonneg.mpr a.toRat_pos.le), round_toRat]
  exact F64.magnitude_pos a.toRat_pos

/-- Alphas compare as their bits. -/
theorem lt_iff_magnitude {a b : Alpha F64} : a < b ↔ a.value.magnitude < b.value.magnitude := by
  rw [lt_def, toRat_eq_point, toRat_eq_point, F64.grid.strictMono.lt_iff_lt]

/-- Between a value up to one alpha and a value from a greater one on there is a middle. -/
theorem separated_of_le {a b : Alpha F64} {q r : K} (h0 : 0 ≤ q) (hq : q ≤ ((a.toRat : ℚ) : K))
    (hab : a < b) (hr : ((b.toRat : ℚ) : K) ≤ r) : (F64.gridOver K).Separated q r := by
  have hq0 : (F64.gridOver K).point 0 ≤ q := F64.gridOver_point_zero.trans_le h0
  have hb0 : (F64.gridOver K).point 0 ≤ ((b.toRat : ℚ) : K) :=
    F64.gridOver_point_zero.trans_le (Rat.cast_nonneg.mpr b.toRat_pos.le)
  apply ((F64.gridOver K).round_lt_round_iff hq0 (hb0.trans hr)).mp
  calc (F64.gridOver K).round q ≤ (F64.gridOver K).round ((a.toRat : ℚ) : K) :=
        (F64.gridOver K).round_mono hq0 hq
    _ = a.value.magnitude := a.round_toRat
    _ < b.value.magnitude := lt_iff_magnitude.mp hab
    _ = (F64.gridOver K).round ((b.toRat : ℚ) : K) := b.round_toRat.symm
    _ ≤ (F64.gridOver K).round r := (F64.gridOver K).round_mono hb0 hr

/-- Up to the bits of one, all magnitude bits but those of zero are an alpha's. -/
theorem exists_value_eq_ofMagnitude_iff {m : ℕ} (hm : m ≤ F64.one.magnitude) :
    (∃ a : Alpha F64, a.value = .ofMagnitude false m) ↔ 0 < m := by
  obtain ⟨hfinite, -, hvalue⟩ := F64.ofMagnitude_of_le_one hm
  constructor
  · rintro ⟨a, ha⟩
    have hpos : 0 < (F64.ofMagnitude false m).toRat := ha ▸ a.toRat_pos
    rw [hvalue, ← F64.grid_point_zero] at hpos
    exact F64.grid.strictMono.lt_iff_lt.mp hpos
  · intro hpos
    have h0 : 0 < (F64.ofMagnitude false m).toRat := by
      rw [hvalue, ← F64.grid_point_zero]
      exact F64.grid.strictMono hpos
    have h1 : (F64.ofMagnitude false m).toRat ≤ 1 := by
      rw [hvalue, ← F64.grid_point_one]
      exact F64.grid.strictMono.monotone hm
    exact exists_value_eq hfinite h0 h1

end Alpha

namespace Fuzzyregion

variable {G P E ε : Type} {engine : GeometryEngine G P E} {v r : Fuzzyregion F64 G}
  {exact : Alpha F64 → K}

/-- Every alpha of the region has its exact image in the unit interval. -/
def InUnit (exact : Alpha F64 → K) (v : Fuzzyregion F64 G) : Prop :=
  ∀ l ∈ v.levels, 0 ≤ exact l.alpha ∧ exact l.alpha ≤ 1

/-- The exact images of neighbouring levels have a middle between them. -/
def Separated (exact : Alpha F64 → K) (v : Fuzzyregion F64 G) : Prop :=
  v.levels.IsChain fun higher lower =>
    (F64.gridOver K).Separated (exact lower.alpha) (exact higher.alpha)

/-- The datum nearest to the exact image. -/
def rounded (exact : Alpha F64 → K) (a : Alpha F64) : F64 :=
  .ofMagnitude false ((F64.gridOver K).round (exact a))

/-- The geometries of a region with the rounded images of its alphas. -/
structure Image (exact : Alpha F64 → K) (v r : Fuzzyregion F64 G) : Prop extends Remapped v r where
  alphas : (r.levels.map fun l => l.alpha.value) = v.levels.map fun l => rounded exact l.alpha

/-- A remap by rounded images in the unit interval returns exactly when no image rounds to zero. -/
theorem exists_remapMembershipValues_iff_lt (remap : Alpha F64 → F64) (hunit : InUnit exact v)
    (hremap : ∀ l ∈ v.levels, remap l.alpha = rounded exact l.alpha) :
    (∃ r, v.remapMembershipValues remap = (.ok r : Outcome ε _)) ↔
      ∀ l ∈ v.levels, 1 / 2 ^ 1075 < exact l.alpha := by
  rw [exists_remapMembershipValues_iff]
  refine forall₂_congr fun l hl => ?_
  obtain ⟨h0, h1⟩ := hunit l hl
  rw [hremap l hl, ← F64.round_pos_iff h0]
  exact Alpha.exists_value_eq_ofMagnitude_iff (F64.round_le_one h0 h1)

theorem image_of_remapMembershipValues {remap : Alpha F64 → F64}
    (hremap : ∀ l ∈ v.levels, remap l.alpha = rounded exact l.alpha)
    (h : v.remapMembershipValues remap = (.ok r : Outcome ε _)) : Image exact v r := by
  obtain ⟨hremapped, halphas⟩ := remapMembershipValues_eq_ok h
  exact ⟨hremapped, halphas.trans (List.map_congr_left hremap)⟩

/-- The alphas of an image have the indices of the rounded images as their bits. -/
theorem Image.magnitudes (h : Image exact v r) (hunit : InUnit exact v) :
    (r.levels.map fun l => l.alpha.value.magnitude) =
      v.levels.map fun l => (F64.gridOver K).round (exact l.alpha) := by
  have hmagnitudes := congrArg (List.map F64.magnitude) h.alphas
  rw [List.map_map, List.map_map] at hmagnitudes
  refine hmagnitudes.trans (List.map_congr_left fun l hl => ?_)
  obtain ⟨h0, h1⟩ := hunit l hl
  exact (F64.ofMagnitude_of_le_one (F64.round_le_one h0 h1)).2.1

/-- Monotone images do not ascend. -/
theorem Image.pairwise_le (h : Image exact v r) (hunit : InUnit exact v) (hmono : Monotone exact)
    (hv : Canonical engine v) :
    r.levels.Pairwise fun higher lower => lower.alpha ≤ higher.alpha := by
  have hle : (v.levels.map fun l => (F64.gridOver K).round (exact l.alpha)).Pairwise
      fun m n => n ≤ m := by
    rw [List.pairwise_map]
    refine hv.descending.imp_of_mem fun hhigher hlower hlt => ?_
    exact (F64.gridOver K).round_mono (F64.gridOver_point_zero.trans_le (hunit _ hlower).1)
      (hmono hlt.le)
  rw [← h.magnitudes hunit, List.pairwise_map] at hle
  exact hle.imp fun hle => not_lt.mp (Alpha.lt_iff_magnitude.not.mpr hle.not_gt)

/-- The alphas of an image descend exactly when middles separate the exact images. -/
theorem Image.descending_iff (h : Image exact v r) (hunit : InUnit exact v) :
    (r.levels.Pairwise fun higher lower => lower.alpha < higher.alpha) ↔ Separated exact v := by
  rw [← Descending.isChain_iff_pairwise]
  calc (r.levels.IsChain fun higher lower => lower.alpha < higher.alpha)
      ↔ (r.levels.map fun l => l.alpha.value.magnitude).IsChain fun m n => n < m := by
        rw [List.isChain_map]
        simp only [Alpha.lt_iff_magnitude]
    _ ↔ v.levels.IsChain fun higher lower =>
          (F64.gridOver K).round (exact lower.alpha) <
            (F64.gridOver K).round (exact higher.alpha) := by
        rw [h.magnitudes hunit, List.isChain_map]
    _ ↔ Separated exact v := by
        apply List.IsChain.iff_of_mem_imp
        intro higher lower hhigher hlower
        exact (F64.gridOver K).round_lt_round_iff
          (F64.gridOver_point_zero.trans_le (hunit lower hlower).1)
          (F64.gridOver_point_zero.trans_le (hunit higher hhigher).1)

theorem Image.canonical_iff (h : Image exact v r) (hunit : InUnit exact v)
    (hv : Canonical engine v) : Canonical engine r ↔ Separated exact v :=
  (h.toRemapped.canonical_iff hv).trans (h.descending_iff hunit)

/-! ## Normalization -/

/-- The exact image of an alpha under normalization. -/
def quotient (max a : Alpha F64) : ℚ := a.toRat / max.toRat

theorem quotient_mem {max a : Alpha F64} (h : a ≤ max) :
    0 ≤ quotient max a ∧ quotient max a ≤ 1 :=
  ⟨div_nonneg a.toRat_pos.le max.toRat_pos.le,
    div_le_one_of_le₀ (Alpha.le_def.mp h) max.toRat_pos.le⟩

theorem quotient_mono (max : Alpha F64) : Monotone (quotient max) := fun _ _ h =>
  div_le_div_of_nonneg_right (Alpha.le_def.mp h) max.toRat_pos.le

/-- The rounded quotient. -/
theorem div_eq_rounded {max a : Alpha F64} (h : a ≤ max) :
    Scalar.div a.value max.value = rounded (quotient max) a := by
  obtain ⟨h0, h1⟩ := quotient_mem h
  exact (F64.div_eq a.finite max.finite a.toRat_pos max.toRat_pos).trans
    (F64.ofRat_of_le_one h0 h1)

/-- An exact image that is the value of an alpha rounds to it. -/
theorem rounded_eq_value {a b : Alpha F64} (h : exact a = ((b.toRat : ℚ) : K)) :
    rounded exact a = b.value := by
  rw [rounded, h, b.round_toRat]
  exact b.value_eq_ofMagnitude.symm

/-- Normalization divides by the maximum alpha and always returns. -/
theorem exists_normalizeMembership (hv : Canonical engine v) :
    ∃ r, v.normalizeMembership = (.ok r : Outcome ε _) ∧ Remapped v r ∧
      ∀ max, v.maxAlpha = some max → Image (quotient max) v r := by
  unfold normalizeMembership
  cases hmax : v.maxAlpha with
  | none => exact ⟨v, rfl, .refl v, fun _ h => nomatch h⟩
  | some max =>
    have hle := hv.le_maxAlpha hmax
    have hunit : InUnit (quotient max) v := fun l hl => quotient_mem (hle l hl)
    dsimp only
    split_ifs with hone
    · -- dividing by one changes no alpha
      have hmax1 : max.toRat = 1 :=
        ((LawfulScalar.eq_iff max.finite LawfulScalar.isFinite_one).mp hone).trans
          LawfulScalar.toRat_one
      refine ⟨v, rfl, .refl v, fun m hm => ?_⟩
      obtain rfl := Option.some.inj hm
      refine ⟨.refl v, List.map_congr_left fun l _ => (rounded_eq_value ?_).symm⟩
      rw [quotient, hmax1, div_one]
      rfl
    · have hremap : ∀ l ∈ v.levels,
          Scalar.div l.alpha.value max.value = rounded (quotient max) l.alpha := fun l hl =>
        div_eq_rounded (hle l hl)
      -- dividing by at most one does not lower an alpha
      have hlt : ∀ l ∈ v.levels, 1 / 2 ^ 1075 < quotient max l.alpha := by
        intro l _
        calc 1 / 2 ^ 1075 < ((l.alpha.toRat : ℚ) : ℚ) := l.alpha.lt_toRat
          _ ≤ quotient max l.alpha :=
            le_div_self l.alpha.toRat_pos.le max.toRat_pos max.toRat_le_one
      obtain ⟨r, hr⟩ := (exists_remapMembershipValues_iff_lt
        (fun a => Scalar.div a.value max.value) hunit hremap).mpr hlt
      have himage := image_of_remapMembershipValues hremap hr
      refine ⟨r, hr, himage.toRemapped, fun m hm => ?_⟩
      obtain rfl := Option.some.inj hm
      exact himage

/-- Normalization keeps the geometries, and its alphas do not ascend. They descend exactly when
middles separate the exact quotients. -/
theorem normalizeMembership_descending_iff (hv : Canonical engine v) :
    ∃ r, v.normalizeMembership = (.ok r : Outcome ε _) ∧ Remapped v r ∧
      (r.levels.Pairwise fun higher lower => lower.alpha ≤ higher.alpha) ∧
      ((r.levels.Pairwise fun higher lower => lower.alpha < higher.alpha) ↔
        ∀ max, v.maxAlpha = some max → Separated (quotient max) v) := by
  obtain ⟨r, hr, hremapped, himage⟩ := exists_normalizeMembership (ε := ε) hv
  refine ⟨r, hr, hremapped, ?_⟩
  cases hmax : v.maxAlpha with
  | none =>
    have hnil : v.levels = [] := by simpa [maxAlpha] using hmax
    have hrnil : r.levels = [] := by simpa [hnil] using hremapped.geometries
    rw [hrnil]
    exact ⟨.nil, iff_of_true .nil fun _ h => nomatch h⟩
  | some max =>
    have hunit : InUnit (quotient max) v := fun l hl => quotient_mem (hv.le_maxAlpha hmax l hl)
    refine ⟨(himage max hmax).pairwise_le hunit (quotient_mono max) hv,
      ((himage max hmax).descending_iff hunit).trans ?_⟩
    simp

end Fuzzyregion

end FuzzyRegion
