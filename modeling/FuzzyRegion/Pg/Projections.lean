import FuzzyRegion.Core.FromLevels
import FuzzyRegion.Pg.Validation

/-!
# Projections of the stored levels

Support, core and alpha-cuts are read from the payload itself, while the other functions decode the
payload first. Decoding normalizes the geometries and drops repeated extents, so both paths may find
different levels; the levels that they find cover the same points.

## Main definitions

* `SameCut e ewkb geometry`: both are present with the same points, or both are absent
* `SameProjections`, `SameBytes`: the projections of a payload and of its domain value agree

## Main results

* `sameProjections_of_decode`: they agree on every payload that can be decoded
* `projections_agree`: and they have the same bytes when the payload stores a built region
-/

namespace FuzzyRegion

open Numeric Fallible LevelStack Fuzzyregion SqlFuzzyregion

variable {P S : Type}

/-! ## The projections of the raw region -/

/-- The stored bytes of a cut, and the geometry of a cut, are both present and have the same points,
or they are both absent. -/
def SameCut (e : PointSetEngine PostgisGeometry P) :
    Option (List UInt8) → Option PostgisGeometry → Prop
  | some ewkb, some geometry => ∃ hne, e.points ⟨ewkb, hne⟩ = e.points geometry
  | none, none => True
  | _, _ => False

/-- The projections of a payload agree with those of a domain value. -/
structure SameProjections (e : PointSetEngine PostgisGeometry P) (s : SqlFuzzyregion)
    (d : DomainFuzzyregion) : Prop where
  alphaCut : ∀ t, SameCut e (s.alphaCutEwkb t) (d.alphaCut t)
  support : SameCut e s.supportEwkb d.support
  core : SameCut e s.coreEwkb d.core

/-- The projections of a payload are the bytes of those of a domain value. -/
structure SameBytes (s : SqlFuzzyregion) (d : DomainFuzzyregion) : Prop where
  alphaCut : ∀ t, s.alphaCutEwkb t = (d.alphaCut t).map PostgisGeometry.ewkb
  support : s.supportEwkb = d.support.map PostgisGeometry.ewkb
  core : s.coreEwkb = d.core.map PostgisGeometry.ewkb

/-- The functions on the payload are the projections of its raw region. -/
theorem sameBytes_region (s : SqlFuzzyregion) : SameBytes s s.stored.region where
  alphaCut t := by
    rw [alphaCutEwkb, Fuzzyregion.alphaCut, supportEwkb, Fuzzyregion.support,
      StoredFuzzyregion.region, List.getLast?_map, ← List.map_reverse, List.find?_map]
    split_ifs
    · simp only [Option.map_map]
      rfl
    · simp only [Option.map_map]
      rfl
  support := by
    rw [supportEwkb, Fuzzyregion.support, StoredFuzzyregion.region, List.getLast?_map]
    simp only [Option.map_map]
    rfl
  core := by
    rw [coreEwkb, Fuzzyregion.core, StoredFuzzyregion.region, List.find?_map]
    simp only [Option.map_map]
    rfl

/-- Only the levels of the domain value matter. -/
theorem SameBytes.of_levels {s : SqlFuzzyregion} {v d : DomainFuzzyregion} (h : SameBytes s v)
    (hlevels : d.levels = v.levels) : SameBytes s d where
  alphaCut t := by
    rw [h.alphaCut, Fuzzyregion.alphaCut, Fuzzyregion.alphaCut, Fuzzyregion.support,
      Fuzzyregion.support, hlevels]
  support := by rw [h.support, Fuzzyregion.support, Fuzzyregion.support, hlevels]
  core := by rw [h.core, Fuzzyregion.core, Fuzzyregion.core, hlevels]

/-! ## Agreement -/

section

variable {e : PointSetEngine PostgisGeometry P} {s : SqlFuzzyregion} {d : DomainFuzzyregion}

/-- A payload that can be decoded presents a stack without empty levels. -/
theorem isStack_region (h : decodeStoredFuzzyregion s.stored (e.engine (PostgisError S)) = .ok d) :
    IsStack (e.stack s.stored.region.levels) ∧
      ∀ l ∈ s.stored.region.levels, (e.points l.geometry).Nonempty := by
  rw [decode_eq_canonicalize] at h
  have hwell : WellFormed e.toCrispEngine s.stored.region.levels := wellFormed_of_fromLevels h
  constructor
  · rw [IsStack, RegularizedEngine.stack, List.pairwise_map]
    refine List.Pairwise.imp_of_mem ?_ (descending_region s.stored)
    intro higher lower hh hl hlt
    -- the geometries are nested after normalization, which keeps the points
    have hcontains := hwell.contains hh hl hlt
    rw [e.contains_iff (hwell.sameSrid lower hl higher hh), e.points_normalize,
      e.points_normalize] at hcontains
    exact ⟨hlt, hcontains⟩
  · intro l hl
    rw [← e.points_normalize]
    exact e.isEmpty_eq_false_iff.mp (hwell.nonEmpty l hl)

/-- Cuts over the same points, each of them over some point if it is present, agree. -/
theorem sameCut_of_covered {raw cut : Option PostgisGeometry}
    (hraw : ∀ g ∈ raw, (e.points g).Nonempty) (hcut : ∀ g ∈ cut, (e.points g).Nonempty)
    (h : e.covered raw = e.covered cut) : SameCut e (raw.map PostgisGeometry.ewkb) cut := by
  cases raw with
  | none =>
    cases cut with
    | none => trivial
    | some g =>
      rw [e.covered_none, e.covered_some] at h
      exact absurd h.symm (hcut g rfl).ne_empty
  | some g =>
    cases cut with
    | none =>
      rw [e.covered_none, e.covered_some] at h
      exact absurd h (hraw g rfl).ne_empty
    | some g' =>
      rw [e.covered_some, e.covered_some] at h
      exact ⟨g.nonEmpty, h⟩

theorem mem_levels_of_alphaCut {v : DomainFuzzyregion} {t : AlphaThreshold F64}
    {g : PostgisGeometry} (h : v.alphaCut t = some g) : ∃ l ∈ v.levels, l.geometry = g := by
  rw [alphaCut_eq, Option.map_eq_some_iff] at h
  obtain ⟨l, hl, rfl⟩ := h
  exact ⟨l, List.mem_reverse.mp (List.mem_of_find?_eq_some hl), rfl⟩

/-- **The projections of a payload that can be decoded agree with those of its domain value.** -/
theorem sameProjections_of_decode
    (h : decodeStoredFuzzyregion s.stored (e.engine (PostgisError S)) = .ok d) :
    SameProjections e s d := by
  obtain ⟨hstack, hlive⟩ := isStack_region h
  have hbytes := sameBytes_region s
  have hd : Canonical (e.engine (PostgisError S)) d := by
    rw [decode_eq_canonicalize] at h
    exact canonicalize_canonical h
  have hcuts : ∀ t, SameCut e ((s.stored.region.alphaCut t).map PostgisGeometry.ewkb)
      (d.alphaCut t) := by
    intro t
    refine sameCut_of_covered ?_ ?_ ?_
    · intro g hg
      obtain ⟨l, hl, rfl⟩ := mem_levels_of_alphaCut hg
      exact hlive l hl
    · intro g hg
      obtain ⟨l, hl, rfl⟩ := mem_levels_of_alphaCut hg
      exact hd.points_nonempty hl
    · -- both cover the points of the raw levels that reach the threshold
      ext p
      rw [decode_eq_canonicalize] at h
      rw [mem_alphaCut_canonicalize_iff h, alphaCut_eq,
        mem_covered_lowest_iff hstack fun a => decide (t.toRat ≤ a.toRat)]
      simp [RegularizedEngine.stack]
  -- the support is the cut at zero
  have hsupport : ∀ v : DomainFuzzyregion, v.support = v.alphaCut ⟨Scalar.zero, rfl, rfl⟩ :=
    fun _ => rfl
  refine ⟨fun t => ?_, ?_, ?_⟩
  · rw [hbytes.alphaCut]
    exact hcuts t
  · rw [hbytes.support, hsupport, hsupport]
    exact hcuts _
  · rw [hbytes.core, core_eq_alphaCut (descending_region s.stored), core_eq_alphaCut hd.descending]
    exact hcuts (.ofAlpha Alpha.one)

/-! ## Built regions -/

/-- A region built by `from_levels` or by a set operation. -/
def Built (engine : PostgisEngine P S) (v : DomainFuzzyregion) : Prop :=
  (∃ raw, fromLevels raw engine = .ok v) ∨ ∃ (op : SetOp) (a b : DomainFuzzyregion),
    op.run a b engine = .ok v

theorem Built.canonical {engine : PostgisEngine P S} {v : DomainFuzzyregion}
    (h : Built engine v) : Canonical engine v := by
  rcases h with ⟨raw, hraw⟩ | ⟨op, a, b, hrun⟩
  · exact canonicalize_canonical hraw
  · exact setOp_canonical hrun

/-- Decoding the payload of a canonical region returns its levels. -/
theorem levels_of_stores {engine : PostgisEngine P S} (hidem : NormalizeIdempotent engine)
    {v : DomainFuzzyregion} (hv : Canonical engine v) {stored : StoredFuzzyregion}
    (hstores : Stores v stored) (h : decodeStoredFuzzyregion stored engine = .ok d) :
    d.levels = v.levels := by
  rw [hstores.decode_eq] at h
  by_cases hne : v.levels = []
  · rw [hne] at h ⊢
    obtain rfl : empty none = d := Except.ok.inj h
    rfl
  · have hrebuilt := canonicalize_of_canonical hv (fun l hl => hv.normalize_eq hidem hl) hne
    rw [Except.ok.inj (h.symm.trans hrebuilt)]

/-- **The projections of the payload agree with those of the domain value**: they are present
together and cover the same points, and have the same bytes when the payload stores a region built
by `from_levels` or a set operation. -/
theorem projections_agree {f64 : F64Text}
    (hidem : ∀ g, e.normalizeMultipolygon (e.normalizeMultipolygon g) = e.normalizeMultipolygon g)
    (h : s.toDomain f64 (e.engine (PostgisError S)) = .ok d) :
    SameProjections e s d ∧ ∀ v, Built (e.engine (PostgisError S)) v →
      encodeDomainFuzzyregion v = (.ok s.stored : Except (PostgisError S) _) → SameBytes s d := by
  have hdecode := toDomain_eq_ok_iff.mp h
  refine ⟨sameProjections_of_decode hdecode, fun v hv hencode => ?_⟩
  have hstores := encodeDomainFuzzyregion_eq_ok_iff.mp hencode
  -- the raw region is the built one, and the domain value has its levels
  have hlevels := levels_of_stores (normalizeIdempotent_engine hidem) hv.canonical hstores hdecode
  obtain rfl := hstores.region_unique (stores_region s.stored)
  exact (sameBytes_region s).of_levels hlevels

end

/-- The domain value of `repeated`: the second level has the extent of the first one. -/
def collapsed : DomainFuzzyregion := ⟨some 1, [⟨Alpha.one, .zoned 1 [5]⟩]⟩

/-- The payload of `collapsed`. -/
def rewritten : StoredFuzzyregion where
  version := .v1
  srid := some 1
  levels := [certainCell]
  valid := rfl

theorem projections_agree_repeated :
    SameProjections zoneEngine ⟨repeated⟩ collapsed ∧ SameBytes ⟨rewritten⟩ collapsed := by
  have hread : toDomain bitsText ⟨repeated⟩ (zoneEngine.engine (PostgisError Empty)) =
      .ok collapsed := by
    decide +kernel
  have hagain : toDomain bitsText ⟨rewritten⟩ (zoneEngine.engine (PostgisError Empty)) =
      .ok collapsed := by
    decide +kernel
  have hbuilt : fromLevels repeated.region.levels (zoneEngine.engine (PostgisError Empty)) =
      .ok collapsed := by
    decide +kernel
  have hencode : encodeDomainFuzzyregion collapsed =
      (.ok rewritten : Except (PostgisError Empty) _) := by
    decide +kernel
  exact ⟨(projections_agree zone_normalize_idem hread).1,
    (projections_agree zone_normalize_idem hagain).2 _ (Or.inl ⟨_, hbuilt⟩) hencode⟩

end FuzzyRegion
