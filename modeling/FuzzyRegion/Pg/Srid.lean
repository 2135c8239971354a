import FuzzyRegion.Pg.Api
import FuzzyRegion.Pg.Zones

/-!
# Declared SRIDs

A payload declares an SRID in its header, and each of its geometries has one of its own. The decoder
takes the SRID of the domain value from the highest geometry and never looks at the header, so the
two views of the SRID agree only when the writer made them agree; a payload without levels has a
header to declare an SRID and no geometry to keep it.

## Main definitions

* `DeclaresSrid engine stored`: the header declares the SRID of the highest geometry
* `DetectsMismatch`: how a set operation on SQL values should treat declared SRIDs

## Main results

* `decode_srid_eq_iff`: when the decoder honours the declared SRID
* `decode_of_stores`: the SRID of the domain value of a stored canonical region
* `detectsMismatch_iff`: when a set operation on reachable values treats their SRIDs as declared
-/

namespace FuzzyRegion

open Numeric Fallible Fuzzyregion SqlFuzzyregion

variable {P S : Type}

/-! ## Decoding -/

/-- The header declares the SRID that the engine reads from the normalized geometry of the highest
level. -/
def DeclaresSrid (engine : PostgisEngine P S) (stored : StoredFuzzyregion) : Prop :=
  ∃ top ∈ stored.levels.head?, ∃ g s,
    engine.normalizeMultipolygon ⟨top.geometryEwkb, top.nonEmpty⟩ = .ok g ∧
      engine.srid g = .ok s ∧ stored.srid = some s

/-- A domain value has the SRID of the highest normalized geometry. -/
theorem srid_of_decode {engine : PostgisEngine P S} {stored : StoredFuzzyregion}
    {d : DomainFuzzyregion} (h : decodeStoredFuzzyregion stored engine = .ok d) {top : StoredLevel}
    (htop : stored.levels.head? = some top) :
    ∃ g s, engine.normalizeMultipolygon ⟨top.geometryEwkb, top.nonEmpty⟩ = .ok g ∧
      engine.srid g = .ok s ∧ d.srid = some s := by
  rw [decode_eq_canonicalize] at h
  obtain ⟨rest, hlevels⟩ := List.head?_eq_some_iff.mp htop
  obtain ⟨levels, hnorm, hrun⟩ := canonicalize_eq_ok_iff.mp h
  have hforall := normalizeLevels_eq_ok_iff.mp hnorm
  -- normalization keeps the descending alphas, so the highest level comes first already
  have hdesc : levels.Pairwise fun higher lower => lower.alpha < higher.alpha :=
    pairwise_of_normalizeLevels (fun x y => y < x) hnorm (descending_region stored)
  rw [sortLevels_eq_self hdesc] at hrun
  rw [StoredFuzzyregion.region, hlevels, List.map_cons, List.forall₂_cons_left_iff] at hforall
  obtain ⟨first, tail, ⟨-, hg, -⟩, -, rfl⟩ := hforall
  rcases hrun with ⟨hnil, -⟩ | ⟨first', tail', s, collapsed, hcons, -, hs, -, -, -, rfl⟩
  · cases hnil
  · obtain ⟨rfl, rfl⟩ := List.cons.inj hcons
    exact ⟨first.geometry, s, hg, hs, rfl⟩

/-- **The decoder honours the declared SRID** of an accepted payload exactly when it is the SRID of
the highest normalized geometry. -/
theorem decode_srid_eq_iff {engine : PostgisEngine P S} {stored : StoredFuzzyregion}
    (hne : stored.levels ≠ []) {d : DomainFuzzyregion}
    (h : decodeStoredFuzzyregion stored engine = .ok d) :
    d.srid = stored.srid ↔ DeclaresSrid engine stored := by
  obtain ⟨top, rest, hlevels⟩ := List.exists_cons_of_ne_nil hne
  have htop : stored.levels.head? = some top := by rw [hlevels, List.head?_cons]
  obtain ⟨g, s, hg, hs, hd⟩ := srid_of_decode h htop
  rw [hd]
  constructor
  · intro hstored
    exact ⟨top, htop, g, s, hg, hs, hstored.symm⟩
  · rintro ⟨top', htop', g', s', hg', hs', hstored⟩
    obtain rfl : top = top' := Option.some.inj (htop.symm.trans htop')
    obtain rfl : g = g' := Except.ok.inj (hg.symm.trans hg')
    rw [hstored, Except.ok.inj (hs.symm.trans hs')]

/-- A certain cell in the reference system `1`, with the SRID that a header declares for it. -/
def declaring (srid : Int32) : StoredFuzzyregion where
  version := .v1
  srid := some srid
  levels := [certainCell]
  valid := rfl

theorem decode_declaring (srid : Int32) :
    decodeStoredFuzzyregion (declaring srid) (zoneEngine.engine (PostgisError Empty)) =
      .ok ⟨some 1, [⟨Alpha.one, .zoned 1 [5]⟩]⟩ := by
  have hone : decodeStoredFuzzyregion (declaring 1) (zoneEngine.engine (PostgisError Empty)) =
      .ok ⟨some 1, [⟨Alpha.one, .zoned 1 [5]⟩]⟩ := by
    decide +kernel
  rwa [decode_eq_canonicalize] at hone ⊢

theorem decode_srid_eq_iff_declaring :
    (⟨some 1, [⟨Alpha.one, .zoned 1 [5]⟩]⟩ : DomainFuzzyregion).srid = (declaring 1).srid :=
  (decode_srid_eq_iff (List.cons_ne_nil _ _) (decode_declaring 1)).mpr
    ⟨_, rfl, _, 1, rfl, rfl, rfl⟩

/-- The literal and the payload that declare `2` for the cell are accepted, and decode to a region
with the SRID `1`. -/
theorem declaring_loses_srid :
    parseText bitsText "v1;srid=2;levels=[1:0105]".toList = .ok ⟨declaring 2⟩ ∧
    StoredFuzzyregion.decodeBody (· % 2 ^ 64) [70, 90, 82, 71, 1, 1, 0, 0, 0, 0, 0, 1, 0, 0, 0, 2,
      63, 240, 0, 0, 0, 0, 0, 0, 0, 0, 0, 2, 1, 5] = .ok (declaring 2) ∧
    ¬ ∀ d, decodeStoredFuzzyregion (declaring 2) (zoneEngine.engine (PostgisError Empty)) = .ok d →
      d.srid = (declaring 2).srid := by
  refine ⟨by decide +kernel, by decide +kernel, fun h => ?_⟩
  exact absurd (h _ (decode_declaring 2)) (by decide)

/-! ## Set operations -/

section

variable {f64 : F64Text} {e : RegularizedEngine PostgisGeometry P} {a b : SqlFuzzyregion}

/-- The payload of a canonical region is decoded, with the SRID of the region unless it has no
level. -/
theorem decode_of_stores {d : DomainFuzzyregion} (hd : Canonical (e.engine (PostgisError S)) d)
    {stored : StoredFuzzyregion} (hstores : Stores d stored) :
    ∃ d', decodeStoredFuzzyregion stored (e.engine (PostgisError S)) = .ok d' ∧
      Canonical (e.engine (PostgisError S)) d' ∧
      d'.srid = if stored.levels = [] then none else stored.srid := by
  rw [hstores.decode_eq]
  by_cases hnil : d.levels = []
  · have hstored : stored.levels = [] := by
      by_contra hne
      exact (ne_nil_iff hstores.levels).mp hne hnil
    rw [hnil, if_pos hstored]
    exact ⟨empty none, rfl, canonical_empty _ _, rfl⟩
  · have hstored := (ne_nil_iff hstores.levels).mpr hnil
    obtain ⟨s, hs, hsame⟩ := hd.sharedSrid hnil
    -- a normalized geometry keeps its points when it is normalized again
    have hpoints : ∀ l ∈ d.levels,
        e.points (e.normalizeMultipolygon l.geometry) = e.points l.geometry := by
      intro l hl
      obtain ⟨g, hg⟩ := hd.normalized l hl
      rw [← Except.ok.inj hg]
      exact e.normalize_idem g
    have hstack : e.stack (d.levels.map e.normalizeLevel) = e.stack d.levels := by
      rw [stack_map_normalizeLevel]
      exact List.map_congr_left fun l hl => by rw [hpoints l hl]
    obtain ⟨d', hd', hsrid, -⟩ := canonicalize_of_isStack (E := PostgisError S) hnil
      (hstack ▸ hd.isStrictStack.isStack)
      (fun l hl => by
        rw [hpoints l hl]
        exact hd.points_nonempty hl)
      (fun l hl => Except.ok.inj (hsame l hl))
    refine ⟨d', hd', canonicalize_canonical hd', ?_⟩
    rw [if_neg hstored, hstores.srid, hs, hsrid]

/-- Two SRIDs that are both present and differ. -/
def SridMismatch (left right : Option Int32) : Prop :=
  ∃ s t, left = some s ∧ right = some t ∧ s ≠ t

theorem SridMismatch.symm {left right : Option Int32} (h : SridMismatch left right) :
    SridMismatch right left := by
  obtain ⟨s, t, hs, ht, hne⟩ := h
  exact ⟨t, s, ht, hs, hne.symm⟩

/-- How a set operation should treat the declared SRIDs of its operands: it fails for a mismatch
exactly when they mismatch, and otherwise the result declares the first one, unless it exceeds a
limit of the storage. -/
structure DetectsMismatch (f64 : F64Text) (engine : PostgisEngine P S) (op : SetOp)
    (a b : SqlFuzzyregion) : Prop where
  fails_iff : (∃ s t, op.runSql f64 engine a b = .error (.error (.core (.mixedOperandSrid s t)))) ↔
    SridMismatch (fuzzyregionSrid a) (fuzzyregionSrid b)
  srid : ¬ SridMismatch (fuzzyregionSrid a) (fuzzyregionSrid b) →
    (∃ r, op.runSql f64 engine a b = .ok r ∧
      fuzzyregionSrid r = (fuzzyregionSrid a).or (fuzzyregionSrid b)) ∨
    ∃ limit, ExceedsLimit limit ∧
      op.runSql f64 engine a b = .error (.error (.postgis (.storage limit)))

/-- The SRID that the domain value of a payload has. -/
def keptSrid (v : SqlFuzzyregion) : Option Int32 :=
  if v.stored.levels = [] then none else v.stored.srid

/-- A set operation on reachable values compares the kept SRIDs, and the result declares the first of
them. -/
theorem runSql_keptSrid (op : SetOp) (ha : SqlReachable f64 (e.engine (PostgisError S)) a)
    (hb : SqlReachable f64 (e.engine (PostgisError S)) b) :
    ((∃ s t, op.runSql f64 (e.engine (PostgisError S)) a b =
        .error (.error (.core (.mixedOperandSrid s t)))) ↔
      SridMismatch (keptSrid a) (keptSrid b)) ∧
    (¬ SridMismatch (keptSrid a) (keptSrid b) →
      (∃ r, op.runSql f64 (e.engine (PostgisError S)) a b = .ok r ∧
        fuzzyregionSrid r = (keptSrid a).or (keptSrid b)) ∨
      ∃ limit, ExceedsLimit limit ∧ op.runSql f64 (e.engine (PostgisError S)) a b =
        .error (.error (.postgis (.storage limit)))) := by
  obtain ⟨v, hv, hva⟩ := ha.exists_canonical
  obtain ⟨w, hw, hwb⟩ := hb.exists_canonical
  obtain ⟨left, hleft, hleftCanonical, hleftSrid⟩ := decode_of_stores hv hva
  obtain ⟨right, hright, hrightCanonical, hrightSrid⟩ := decode_of_stores hw hwb
  change left.srid = keptSrid a at hleftSrid
  change right.srid = keptSrid b at hrightSrid
  rw [op.runSql_eq, binarySetOperation_eq hleft hright]
  by_cases hmismatch : SridMismatch (keptSrid a) (keptSrid b)
  · obtain ⟨s, t, hs, ht, hne⟩ := hmismatch
    rw [op.run_eq_error (hleftSrid.trans hs) (hrightSrid.trans ht) hne]
    exact ⟨iff_of_true ⟨s, t, rfl⟩ ⟨s, t, hs, ht, hne⟩,
      fun hno => absurd ⟨s, t, hs, ht, hne⟩ hno⟩
  · have hcompat : Compatible left right := by
      intro s t hs ht
      by_contra hne
      exact hmismatch ⟨s, t, hleftSrid.symm.trans hs, hrightSrid.symm.trans ht, hne⟩
    obtain ⟨result, hresult, hsrid, -⟩ := op.run_eq_ok hleftCanonical hrightCanonical hcompat
    rw [hleftSrid, hrightSrid] at hsrid
    rw [hresult]
    change ((∃ s t, liftApi ((fromDomain result).mapError ApiError.postgis) = _) ↔ _) ∧ _
    rcases liftApi_fromDomain (setOp_canonical hresult) with
      ⟨r, hrun, hstores⟩ | ⟨limit, hlimit, hrun⟩
    · refine ⟨iff_of_false ?_ hmismatch, fun _ => Or.inl ⟨r, hrun, hstores.srid.trans hsrid⟩⟩
      rintro ⟨s, t, herror⟩
      cases hrun.symm.trans herror
    · refine ⟨iff_of_false ?_ hmismatch, fun _ => Or.inr ⟨limit, hlimit, hrun⟩⟩
      rintro ⟨s, t, herror⟩
      cases hrun.symm.trans herror

/-- Without levels on both sides, the result has no level and no SRID. -/
theorem runSql_of_empty (op : SetOp) (ha : a.stored.levels = []) (hb : b.stored.levels = []) :
    op.runSql f64 (e.engine (PostgisError S)) a b = .ok ⟨.empty none⟩ := by
  have hdecode : ∀ {v : SqlFuzzyregion}, v.stored.levels = [] →
      decodeStoredFuzzyregion v.stored (e.engine (PostgisError S)) = .ok (empty none) := by
    intro v hv
    rw [decode_eq_canonicalize, StoredFuzzyregion.region, hv]
    rfl
  rw [op.runSql_eq, binarySetOperation_eq (hdecode ha) (hdecode hb)]
  cases op <;> rfl

/-- An operand that can declare an SRID only in its header, and does, meets an operand that keeps
the same one. -/
def KeepsSrid (a b : SqlFuzzyregion) : Prop :=
  a.stored.levels = [] → ∀ s, fuzzyregionSrid a = some s →
    b.stored.levels ≠ [] ∧ fuzzyregionSrid b = some s

theorem keptSrid_of_empty {v : SqlFuzzyregion} (h : v.stored.levels = []) : keptSrid v = none :=
  if_pos h

theorem keptSrid_of_ne {v : SqlFuzzyregion} (h : v.stored.levels ≠ []) :
    keptSrid v = fuzzyregionSrid v :=
  if_neg h

/-- A value with levels declares an SRID. -/
theorem exists_srid {v : SqlFuzzyregion} (h : v.stored.levels ≠ []) :
    ∃ s, fuzzyregionSrid v = some s :=
  Option.ne_none_iff_exists'.mp (v.stored.invariant.sridPresent h)

/-- Operands that keep their SRIDs mismatch as declared, and their first kept SRID is the first
declared one unless they mismatch. -/
theorem keptSrid_of_keepsSrid (ha : KeepsSrid a b) (hb : KeepsSrid b a) :
    (SridMismatch (keptSrid a) (keptSrid b) ↔
      SridMismatch (fuzzyregionSrid a) (fuzzyregionSrid b)) ∧
    (keptSrid a).or (keptSrid b) = (fuzzyregionSrid a).or (fuzzyregionSrid b) := by
  by_cases hna : a.stored.levels = []
  · rw [keptSrid_of_empty hna]
    cases hsa : fuzzyregionSrid a with
    | none =>
      -- a value without a declared SRID adds nothing
      by_cases hnb : b.stored.levels = []
      · have hsb : fuzzyregionSrid b = none := by
          by_contra hne
          obtain ⟨t, ht⟩ := Option.ne_none_iff_exists'.mp hne
          exact (hb hnb t ht).1 hna
        rw [keptSrid_of_empty hnb, hsb]
        exact ⟨Iff.rfl, rfl⟩
      · rw [keptSrid_of_ne hnb]
        exact ⟨Iff.rfl, rfl⟩
    | some s =>
      obtain ⟨hnb, hsb⟩ := ha hna s hsa
      rw [keptSrid_of_ne hnb, hsb]
      refine ⟨iff_of_false ?_ ?_, rfl⟩
      · rintro ⟨_, _, hnone, -⟩
        cases hnone
      · rintro ⟨s', t', hs', ht', hne⟩
        exact hne (Option.some.inj (hs'.symm.trans ht'))
  · rw [keptSrid_of_ne hna]
    obtain ⟨s, hsa⟩ := exists_srid hna
    by_cases hnb : b.stored.levels = []
    · rw [keptSrid_of_empty hnb, hsa]
      refine ⟨iff_of_false ?_ ?_, rfl⟩
      · rintro ⟨_, _, -, hnone, -⟩
        cases hnone
      · rintro ⟨s', t', hs', ht', hne⟩
        -- the header of `b` declares the SRID of `a`
        have hsame := (hb hnb t' ht').2
        rw [hsa] at hsame
        exact hne (Option.some.inj (hs'.symm.trans hsame))
    · rw [keptSrid_of_ne hnb]
      exact ⟨Iff.rfl, rfl⟩

/-- An operand without levels keeps what it declares if it does not mismatch and meets an operand
with levels. -/
theorem keepsSrid_of_not_mismatch
    (hno : a.stored.levels = [] → ¬ SridMismatch (fuzzyregionSrid a) (fuzzyregionSrid b))
    (hnone : a.stored.levels = [] → b.stored.levels = [] → fuzzyregionSrid a = none) :
    KeepsSrid a b := by
  intro hna s hs
  have hnb : b.stored.levels ≠ [] := by
    intro hnb
    cases hs.symm.trans (hnone hna hnb)
  obtain ⟨t, ht⟩ := exists_srid hnb
  refine ⟨hnb, ?_⟩
  by_contra hne
  exact hno hna ⟨s, t, hs, ht, fun heq => hne (heq ▸ ht)⟩

/-- **Set operations on reachable values treat their SRIDs as declared** exactly when no operand
without levels declares an SRID that the other one does not keep. -/
theorem detectsMismatch_iff (op : SetOp) (ha : SqlReachable f64 (e.engine (PostgisError S)) a)
    (hb : SqlReachable f64 (e.engine (PostgisError S)) b) :
    DetectsMismatch f64 (e.engine (PostgisError S)) op a b ↔ KeepsSrid a b ∧ KeepsSrid b a := by
  obtain ⟨hfails, hreturns⟩ := runSql_keptSrid op ha hb
  constructor
  · intro hdetects
    -- without levels an operand keeps no SRID, so nothing may mismatch with the declared one
    have hno : a.stored.levels = [] ∨ b.stored.levels = [] →
        ¬ SridMismatch (fuzzyregionSrid a) (fuzzyregionSrid b) := by
      rintro hempty hmismatch
      obtain ⟨s, t, hs, ht, -⟩ := hfails.mp (hdetects.fails_iff.mpr hmismatch)
      rcases hempty with hnil | hnil
      · cases hs.symm.trans (keptSrid_of_empty hnil)
      · cases ht.symm.trans (keptSrid_of_empty hnil)
    -- and without levels on both sides the result declares none
    have hnone : a.stored.levels = [] → b.stored.levels = [] →
        (fuzzyregionSrid a).or (fuzzyregionSrid b) = none := by
      intro hna hnb
      have hrun : op.runSql f64 (e.engine (PostgisError S)) a b = .ok ⟨.empty none⟩ :=
        runSql_of_empty op hna hnb
      rcases hdetects.srid (hno (Or.inl hna)) with ⟨r, hr, hsrid⟩ | ⟨limit, -, herror⟩
      · obtain rfl := Except.ok.inj (hrun.symm.trans hr)
        exact hsrid.symm
      · cases hrun.symm.trans herror
    constructor
    · refine keepsSrid_of_not_mismatch (fun hna => hno (Or.inl hna)) fun hna hnb => ?_
      exact (Option.or_eq_none_iff.mp (hnone hna hnb)).1
    · refine keepsSrid_of_not_mismatch (fun hnb h => hno (Or.inr hnb) h.symm) fun hnb hna => ?_
      exact (Option.or_eq_none_iff.mp (hnone hna hnb)).2
  · rintro ⟨hka, hkb⟩
    obtain ⟨hmismatch, hor⟩ := keptSrid_of_keepsSrid hka hkb
    rw [hmismatch] at hfails hreturns
    rw [hor] at hreturns
    exact ⟨hfails, hreturns⟩

end

/-- A certain cell of a zone, as an SQL value. -/
def cellOf (zone cell : UInt8) : SqlFuzzyregion where
  stored :=
    { version := .v1
      srid := some (.ofNat zone.toNat)
      levels := [⟨Alpha.one, [zone, cell], List.cons_ne_nil _ _, by simp [u32Max]⟩]
      valid := rfl }

theorem reachable_cellOf (zone cell : UInt8) :
    SqlReachable bitsText (zoneEngine.engine (PostgisError Empty)) (cellOf zone cell) := by
  have hbuilt : fuzzyregionFromEwkb (zoneEngine.engine (PostgisError Empty)) [some F64.one]
      [some [zone, cell]] = .ok (cellOf zone cell) :=
    rfl
  exact .fromEwkb hbuilt

theorem detectsMismatch_iff_cellOf :
    DetectsMismatch bitsText (zoneEngine.engine (PostgisError Empty)) .union (cellOf 1 5)
      (cellOf 2 5) := by
  refine (detectsMismatch_iff (e := zoneEngine.toRegularizedEngine) .union
    (reachable_cellOf 1 5) (reachable_cellOf 2 5)).mpr ⟨?_, ?_⟩
  · exact fun h => absurd h (List.cons_ne_nil _ _)
  · exact fun h => absurd h (List.cons_ne_nil _ _)

/-- Two cells of zone `1` do not meet, and their intersection declares the SRID of the zone. Its
union with a cell of zone `2` does not fail. -/
theorem empty_operand_hides_mismatch :
    SqlReachable bitsText (zoneEngine.engine (PostgisError Empty)) ⟨.empty (some 1)⟩ ∧
    SqlReachable bitsText (zoneEngine.engine (PostgisError Empty)) (cellOf 2 5) ∧
    fuzzyregionUnion bitsText (zoneEngine.engine (PostgisError Empty)) ⟨.empty (some 1)⟩
      (cellOf 2 5) = .ok (cellOf 2 5) ∧
    ¬ DetectsMismatch bitsText (zoneEngine.engine (PostgisError Empty)) .union
      ⟨.empty (some 1)⟩ (cellOf 2 5) := by
  have hmeet : fuzzyregionIntersection bitsText (zoneEngine.engine (PostgisError Empty))
      (cellOf 1 5) (cellOf 1 6) = .ok ⟨.empty (some 1)⟩ := by
    decide +kernel
  have hunion : fuzzyregionUnion bitsText (zoneEngine.engine (PostgisError Empty))
      ⟨.empty (some 1)⟩ (cellOf 2 5) = .ok (cellOf 2 5) := by
    decide +kernel
  refine ⟨.setOp .intersection (reachable_cellOf 1 5) (reachable_cellOf 1 6) hmeet,
    reachable_cellOf 2 5, hunion, fun hdetects => ?_⟩
  -- the SRIDs `1` and `2` are declared, and the call returns
  obtain ⟨s, t, herror⟩ := hdetects.fails_iff.mpr ⟨1, 2, rfl, rfl, by decide⟩
  cases hunion.symm.trans herror

end FuzzyRegion
