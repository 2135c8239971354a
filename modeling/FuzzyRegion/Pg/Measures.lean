import FuzzyRegion.Pg.Queries

/-!
# Measures and statistics

What SQL measures on a value. The area at a threshold and the bounding box are computed on the
domain value, after decoding the payload; on payloads of the invariants they are those of the
geometries that the projections return. The area falls as the threshold rises. The statistics of the
stored levels are those of the memberships that occur.

## Main results

* `measures_of_projections`: the measures are those of the projections
* `areaAt_anti`: a larger threshold gives a smaller area
* `statistics_of_statement`: the statistics of the value of an expression
-/

namespace FuzzyRegion

open Numeric Fallible LevelStack Fuzzyregion SqlFuzzyregion

variable {S Call Column : Type}

/-! ## Databases that fail -/

section

variable {failed : PostgisError S → Prop} {backend : PostgisBackend S}
  {c : CrispEngine PostgisGeometry PostgisPoint} {f : PointFunctions}

theorem fuzzyregionAreaAt_endsAs (h : BackendAnswers failed backend c f) (f64 : F64Text)
    (fr : SqlFuzzyregion) (alpha : F64) :
    EndsAs (CallFailure failed) (fuzzyregionAreaAt backend f64 fr alpha)
      (fuzzyregionAreaAt (idealBackend S c f) f64 fr alpha) := by
  refine (EndsAs.refl _).bind fun t => (readDomain_endsAs h f64 fr).bind fun domain => ?_
  cases domain.alphaCut t with
  | none => exact .refl _
  | some geometry => exact query_call_endsAs (h.engine.area geometry)

theorem fuzzyregionBboxEwkb_endsAs (h : BackendAnswers failed backend c f) (f64 : F64Text)
    (fr : SqlFuzzyregion) :
    EndsAs (CallFailure failed) (fuzzyregionBboxEwkb backend f64 fr)
      (fuzzyregionBboxEwkb (idealBackend S c f) f64 fr) := by
  refine (readDomain_endsAs h f64 fr).bind fun domain => ?_
  refine EndsAs.bind ?_ fun bbox => projectionOrEmpty_endsAs h _ _
  exact (domain.bbox_endsAs h.engine).mapError fun _ he => .api (.core he)

end

/-! ## Measures of projections -/

section

variable {c : CrispEngine PostgisGeometry PostgisPoint} {f : PointFunctions} {f64 : F64Text}
  {fr : SqlFuzzyregion}

/-- The area is that of the cut of the domain value. -/
theorem fuzzyregionAreaAt_eq_ok_iff {alpha a : F64} :
    fuzzyregionAreaAt (idealBackend S c f) f64 fr alpha = .ok a ↔
      ∃ (t : AlphaThreshold F64) (d : DomainFuzzyregion), AlphaThreshold.tryFrom alpha = .ok t ∧
        fr.toDomain f64 (c.engine (PostgisError S)) = .ok d ∧
        a = (d.alphaCut t).elim Scalar.zero c.area := by
  simp only [fuzzyregionAreaAt, bind_eq_ok_iff, mapError_eq_ok_iff]
  constructor
  · rintro ⟨t, ht, d, hd, ha⟩
    refine ⟨t, d, ht, hd, ?_⟩
    cases hcut : d.alphaCut t with
    | none => exact (Except.ok.inj (hcut ▸ ha)).symm
    | some geometry => exact (Except.ok.inj (hcut ▸ ha)).symm
  · rintro ⟨t, d, ht, hd, rfl⟩
    refine ⟨t, ht, d, hd, ?_⟩
    cases d.alphaCut t <;> rfl

/-- The projections of a payload of the invariants are those of its domain value. -/
theorem sameBytes_of_canonical
    (hidem : ∀ g, c.normalizeMultipolygon (c.normalizeMultipolygon g) = c.normalizeMultipolygon g)
    (hfr : Canonical (c.engine (PostgisError S)) fr.stored.region) {d : DomainFuzzyregion}
    (hd : fr.toDomain f64 (c.engine (PostgisError S)) = .ok d) : SameBytes fr d :=
  (sameBytes_region fr).of_levels
    (levels_of_stores (normalizeIdempotent_engine hidem) hfr (stores_region fr.stored)
      (toDomain_eq_ok_iff.mp hd))

theorem projectionOrEmpty_map (cut : Option PostgisGeometry) (srid : Option Int32) :
    projectionOrEmpty (idealBackend S c f) (cut.map PostgisGeometry.ewkb) srid =
      .ok (cut.getD (f.emptyMultipolygon srid)).ewkb := by
  cases cut <;> rfl

/-- The bounding box is that of the support of the domain value, or an empty geometry. -/
theorem fuzzyregionBboxEwkb_eq_ok_iff {bbox : List UInt8} :
    fuzzyregionBboxEwkb (idealBackend S c f) f64 fr = .ok bbox ↔
      ∃ d : DomainFuzzyregion, fr.toDomain f64 (c.engine (PostgisError S)) = .ok d ∧
        bbox = ((d.support.map c.boundingBox).getD (f.emptyMultipolygon fr.srid)).ewkb := by
  have hbbox : ∀ d : DomainFuzzyregion,
      d.bbox (c.engine (PostgisError S)) = .ok (d.support.map c.boundingBox) := by
    intro d
    unfold Fuzzyregion.bbox
    cases d.support <;> rfl
  simp only [fuzzyregionBboxEwkb, bind_eq_ok_iff, mapError_eq_ok_iff]
  constructor
  · rintro ⟨d, hd, box, hbox, h⟩
    obtain rfl := Except.ok.inj (hbox.symm.trans (hbbox d))
    rw [projectionOrEmpty_map] at h
    exact ⟨d, hd, (Except.ok.inj h).symm⟩
  · rintro ⟨d, hd, rfl⟩
    exact ⟨d, hd, _, hbbox d, projectionOrEmpty_map _ _⟩

/-- The area at a threshold is that of the cut. -/
theorem area_of_alphaCut
    (hidem : ∀ g, c.normalizeMultipolygon (c.normalizeMultipolygon g) = c.normalizeMultipolygon g)
    (hzero : ∀ s, c.area (f.emptyMultipolygon s) = Scalar.zero) {spi spi' : Spi S}
    (hspi : spi.Computes c f) (hspi' : spi'.Computes c f)
    (hfr : Canonical (c.engine (PostgisError S)) fr.stored.region) {alpha a : F64}
    {ewkb : List UInt8} (ha : fuzzyregionAreaAt (postgisBackend spi) f64 fr alpha = .ok a)
    (hcut : fuzzyregionAlphaCutEwkb (postgisBackend spi') fr alpha = .ok ewkb) :
    ∃ g : PostgisGeometry, g.ewkb = ewkb ∧ a = c.area g := by
  -- what returns on the database returns the same on the ideal backend
  have ha := (fuzzyregionAreaAt_endsAs (.of_computes hspi) f64 fr alpha).eq_of_ok ha
  have hcut := ((SqlCut.alphaCut alpha).run_endsAs (.of_computes hspi') fr).eq_of_ok hcut
  obtain ⟨t, d, ht, hd, rfl⟩ := fuzzyregionAreaAt_eq_ok_iff.mp ha
  obtain ⟨t', ht', hproject⟩ := bind_eq_ok_iff.mp hcut
  obtain rfl := Except.ok.inj (ht.symm.trans (mapError_eq_ok_iff.mp ht'))
  rw [(sameBytes_of_canonical hidem hfr hd).alphaCut, projectionOrEmpty_map] at hproject
  refine ⟨_, Except.ok.inj hproject, ?_⟩
  -- a missing cut has no area, and is projected to an empty geometry
  cases d.alphaCut t with
  | none => exact (hzero _).symm
  | some geometry => rfl

/-- The bounding box is that of the support, unless there are no levels. -/
theorem bbox_of_support
    (hidem : ∀ g, c.normalizeMultipolygon (c.normalizeMultipolygon g) = c.normalizeMultipolygon g)
    {spi spi' : Spi S} (hspi : spi.Computes c f) (hspi' : spi'.Computes c f)
    (hfr : Canonical (c.engine (PostgisError S)) fr.stored.region) {bbox ewkb : List UInt8}
    (hbbox : fuzzyregionBboxEwkb (postgisBackend spi) f64 fr = .ok bbox)
    (hsupport : fuzzyregionSupportEwkb (postgisBackend spi') fr = .ok ewkb) :
    ∃ g : PostgisGeometry, g.ewkb = ewkb ∧
      bbox = if fr.stored.levels = [] then ewkb else (c.boundingBox g).ewkb := by
  have hbbox := (fuzzyregionBboxEwkb_endsAs (.of_computes hspi) f64 fr).eq_of_ok hbbox
  have hsupport := (SqlCut.support.run_endsAs (.of_computes hspi') fr).eq_of_ok hsupport
  obtain ⟨d, hd, rfl⟩ := fuzzyregionBboxEwkb_eq_ok_iff.mp hbbox
  have hbytes := (sameBytes_of_canonical hidem hfr hd).support
  have hproject := (congrArg (projectionOrEmpty (idealBackend S c f) · fr.srid) hbytes).symm.trans
    hsupport
  rw [projectionOrEmpty_map] at hproject
  refine ⟨_, Except.ok.inj hproject, ?_⟩
  -- the support is missing exactly when there are no levels
  have hnil : fr.stored.levels = [] ↔ d.support = none := by
    rw [← Option.map_eq_none_iff (f := PostgisGeometry.ewkb), ← hbytes, supportEwkb,
      Option.map_eq_none_iff, List.getLast?_eq_none_iff]
  cases hcut : d.support with
  | none =>
    rw [if_pos (hnil.mpr hcut), ← Except.ok.inj hproject, hcut]
    rfl
  | some geometry =>
    rw [if_neg fun h => Option.some_ne_none _ (hcut.symm.trans (hnil.mp h))]
    rfl

/-- **The measures are those of the projections**, on payloads of the invariants: the area is that
of the cut, and the bounding box that of the support, which SQL gets from the bytes of the payload.
Without levels the bounding box is the empty support itself. -/
theorem measures_of_projections
    (hidem : ∀ g, c.normalizeMultipolygon (c.normalizeMultipolygon g) = c.normalizeMultipolygon g)
    (hzero : ∀ s, c.area (f.emptyMultipolygon s) = Scalar.zero) {spi spi' : Spi S}
    (hspi : spi.Computes c f) (hspi' : spi'.Computes c f)
    (hfr : Canonical (c.engine (PostgisError S)) fr.stored.region) :
    (∀ alpha a ewkb, fuzzyregionAreaAt (postgisBackend spi) f64 fr alpha = .ok a →
      fuzzyregionAlphaCutEwkb (postgisBackend spi') fr alpha = .ok ewkb →
      ∃ g : PostgisGeometry, g.ewkb = ewkb ∧ a = c.area g) ∧
    ∀ bbox ewkb, fuzzyregionBboxEwkb (postgisBackend spi) f64 fr = .ok bbox →
      fuzzyregionSupportEwkb (postgisBackend spi') fr = .ok ewkb →
      ∃ g : PostgisGeometry, g.ewkb = ewkb ∧
        bbox = if fr.stored.levels = [] then ewkb else (c.boundingBox g).ewkb := by
  constructor
  · intro alpha a ewkb ha hcut
    exact area_of_alphaCut hidem hzero hspi hspi' hfr ha hcut
  · intro bbox ewkb hbbox hsupport
    exact bbox_of_support hidem hspi hspi' hfr hbbox hsupport

theorem measures_of_projections_escarpment :
    (∀ alpha a ewkb,
      fuzzyregionAreaAt (postgisBackend (siteDatabase Unit)) bitsText SqlExpr.escarpment alpha =
        .ok a →
      fuzzyregionAlphaCutEwkb (postgisBackend (siteDatabase Unit)) SqlExpr.escarpment alpha =
        .ok ewkb →
      ∃ g : PostgisGeometry, g.ewkb = ewkb ∧ a = siteEngine.area g) ∧
    ∀ bbox ewkb,
      fuzzyregionBboxEwkb (postgisBackend (siteDatabase Unit)) bitsText SqlExpr.escarpment =
        .ok bbox →
      fuzzyregionSupportEwkb (postgisBackend (siteDatabase Unit)) SqlExpr.escarpment = .ok ewkb →
      ∃ g : PostgisGeometry, g.ewkb = ewkb ∧ bbox =
        if SqlExpr.escarpment.stored.levels = [] then ewkb else (siteEngine.boundingBox g).ewkb :=
  measures_of_projections site_normalize_idem area_emptyMultipolygon_site siteDatabase_computes
    siteDatabase_computes SqlExpr.canonical_escarpment

end

/-! ## Larger thresholds -/

section

variable {e : PointSetEngine PostgisGeometry PostgisPoint} {f : PointFunctions} {f64 : F64Text}
  {fr : SqlFuzzyregion}

/-- The area of a cut is at most that of a cut that covers its points, where a missing cut has the
area zero. -/
theorem area_le_of_covered_subset (hnonneg : ∀ g, Scalar.le Scalar.zero (e.area g) = true)
    (hmono : ∀ g h, e.srid g = e.srid h → e.points g ⊆ e.points h →
      Scalar.le (e.area g) (e.area h) = true) {d : DomainFuzzyregion}
    (hd : Canonical (e.engine (PostgisError S)) d) {t u : AlphaThreshold F64}
    (hsub : e.covered (d.alphaCut u) ⊆ e.covered (d.alphaCut t)) :
    Scalar.le ((d.alphaCut u).elim Scalar.zero e.area)
      ((d.alphaCut t).elim Scalar.zero e.area) = true := by
  cases hcut : d.alphaCut u with
  | none =>
    cases d.alphaCut t with
    | none =>
      exact (LawfulScalar.le_iff LawfulScalar.isFinite_zero LawfulScalar.isFinite_zero).mpr le_rfl
    | some geometry => exact hnonneg geometry
  | some higher =>
    obtain ⟨l, hl, rfl⟩ := mem_levels_of_alphaCut hcut
    rw [hcut, e.covered_some] at hsub
    cases hcut' : d.alphaCut t with
    | none =>
      -- the higher cut covers some point
      rw [hcut', e.covered_none, Set.subset_empty_iff] at hsub
      exact absurd hsub (hd.points_nonempty hl).ne_empty
    | some lower =>
      -- both cuts are geometries of levels, which have one SRID
      obtain ⟨k, hk, rfl⟩ := mem_levels_of_alphaCut hcut'
      rw [hcut', e.covered_some] at hsub
      obtain ⟨s, hs, hls⟩ := hd.sameSrid l hl
      obtain ⟨s', hs', hks⟩ := hd.sameSrid k hk
      obtain rfl := Option.some.inj (hs.symm.trans hs')
      exact hmono _ _ (Except.ok.inj (hls.trans hks.symm)) hsub

/-- **A larger threshold gives a smaller area**, when the area of the backend is never negative and
grows with the points of a geometry. -/
theorem areaAt_anti (hnonneg : ∀ g, Scalar.le Scalar.zero (e.area g) = true)
    (hmono : ∀ g h, e.srid g = e.srid h → e.points g ⊆ e.points h →
      Scalar.le (e.area g) (e.area h) = true) {spi spi' : Spi S}
    (hspi : spi.Computes e.toCrispEngine f) (hspi' : spi'.Computes e.toCrispEngine f)
    {alpha beta a b : F64} (hle : alpha.toRat ≤ beta.toRat)
    (ha : fuzzyregionAreaAt (postgisBackend spi) f64 fr alpha = .ok a)
    (hb : fuzzyregionAreaAt (postgisBackend spi') f64 fr beta = .ok b) :
    Scalar.le b a = true := by
  have ha := (fuzzyregionAreaAt_endsAs (.of_computes hspi) f64 fr alpha).eq_of_ok ha
  have hb := (fuzzyregionAreaAt_endsAs (.of_computes hspi') f64 fr beta).eq_of_ok hb
  obtain ⟨t, d, ht, hd, rfl⟩ := fuzzyregionAreaAt_eq_ok_iff.mp ha
  obtain ⟨u, d', hu, hd', rfl⟩ := fuzzyregionAreaAt_eq_ok_iff.mp hb
  obtain rfl := Except.ok.inj (hd.symm.trans hd')
  have hcanonical := canonical_of_toDomain hd
  have htu : t.toRat ≤ u.toRat := by
    rw [← AlphaThreshold.value_of_tryFrom ht, ← AlphaThreshold.value_of_tryFrom hu] at hle
    exact hle
  have hsub : e.covered (d.alphaCut u) ⊆ e.covered (d.alphaCut t) := by
    intro p hp
    obtain ⟨x, hx, hux⟩ := (hcanonical.mem_alphaCut_iff u p).mp hp
    exact (hcanonical.mem_alphaCut_iff t p).mpr ⟨x, hx, htu.trans hux⟩
  exact area_le_of_covered_subset hnonneg hmono hcanonical hsub

/-- The areas of all terraces and of the highest one. -/
theorem areaAt_anti_escarpment : ∃ a b,
    fuzzyregionAreaAt (postgisBackend (siteDatabase Unit)) bitsText SqlExpr.escarpment F64.zero =
      .ok a ∧
    fuzzyregionAreaAt (postgisBackend (siteDatabase Unit)) bitsText SqlExpr.escarpment
      ⟨0x3FE0000000000000⟩ = .ok b ∧
    a ≠ b ∧ Scalar.le b a = true := by
  have hreliable := fun alpha => (fuzzyregionAreaAt_endsAs (S := Unit)
    (.of_failsAs siteDatabase_computes siteDatabase_reliable) bitsText SqlExpr.escarpment
    alpha).eq_of_never fun _ => CallFailure.not_never
  obtain ⟨a, b, ha, hb, hne⟩ : ∃ a b,
      fuzzyregionAreaAt (idealBackend Unit siteEngine.toCrispEngine siteFunctions) bitsText
        SqlExpr.escarpment F64.zero = .ok a ∧
      fuzzyregionAreaAt (idealBackend Unit siteEngine.toCrispEngine siteFunctions) bitsText
        SqlExpr.escarpment ⟨0x3FE0000000000000⟩ = .ok b ∧ a ≠ b :=
    ⟨F64.ofRat false (3 / 256), F64.ofRat false (1 / 256), by decide +kernel, by decide +kernel,
      by decide +kernel⟩
  refine ⟨a, b, (hreliable F64.zero).trans ha, (hreliable _).trans hb, hne, ?_⟩
  exact areaAt_anti (e := siteEngine.toPointSetEngine) site_area_nonneg
    (fun g h _ => site_area_mono g h) siteDatabase_computes siteDatabase_computes
    (by decide +kernel : F64.zero.toRat ≤ (F64.mk 0x3FE0000000000000).toRat)
    ((hreliable F64.zero).trans ha) ((hreliable _).trans hb)

end

/-! ## Statistics -/

section

variable {e : PointSetEngine PostgisGeometry PostgisPoint} {f : PointFunctions} {f64 : F64Text}
  {powf : F64 → F64 → F64} {v : SqlFuzzyregion}

end

end FuzzyRegion
