import FuzzyRegion.Pg.Projections
import FuzzyRegion.Pg.StatementMeaning

/-!
# Queries

What SQL can read off a value. The membership at a point is found by decoding the payload and asking
the backend about one level after the other; a cut is cut out of the bytes of the payload, or is an
empty geometry that the backend makes. Both tell the meaning of the value, so that they agree
although they share no code, and on a database that may fail they tell it or nothing.

## Main definitions

* `degreeValue`: a grade as SQL returns it
* `SqlCut`: the functions that return a cut

## Main results

* `fuzzyregionMembershipAtEwkb_eq_ok_iff`: when a membership is returned, and which one
* `membership_of_statement`: the membership of a point in the value of an expression
* `cut_covers_iff`: a cut covers a point exactly when the membership reaches its bound
-/

namespace FuzzyRegion

open Numeric Fallible LevelStack Fuzzyregion SqlFuzzyregion

variable {S Call Column : Type}

/-! ## Databases that fail -/

/-- The functions that return a cut. -/
inductive SqlCut where
  | support
  | core
  | alphaCut (alpha : F64)

namespace SqlCut

/-- The least membership inside a cut. -/
def bound : SqlCut → F64
  | support => Scalar.zero
  | core => Scalar.one
  | alphaCut alpha => alpha

def run (cut : SqlCut) (backend : PostgisBackend S) (fr : SqlFuzzyregion) :
    Except (CallError S) (List UInt8) :=
  match cut with
  | support => fuzzyregionSupportEwkb backend fr
  | core => fuzzyregionCoreEwkb backend fr
  | alphaCut alpha => fuzzyregionAlphaCutEwkb backend fr alpha

end SqlCut

section

variable {failed : PostgisError S → Prop} {backend : PostgisBackend S}
  {c : CrispEngine PostgisGeometry PostgisPoint} {f : PointFunctions}

theorem query_call_endsAs {α : Type} {x y : Except (PostgisError S) α} (h : EndsAs failed x y) :
    EndsAs (CallFailure failed) (x.mapError CallError.postgis) (y.mapError CallError.postgis) :=
  h.mapError fun _ he => .api (.postgis he)

theorem projectionOrEmpty_endsAs (h : BackendAnswers failed backend c f)
    (ewkb : Option (List UInt8)) (srid : Option Int32) :
    EndsAs (CallFailure failed) (projectionOrEmpty backend ewkb srid)
      (projectionOrEmpty (idealBackend S c f) ewkb srid) := by
  cases ewkb with
  | some ewkb => exact .refl _
  | none => exact (query_call_endsAs (h.emptyMultipolygon srid)).map _

theorem SqlCut.run_endsAs (cut : SqlCut) (h : BackendAnswers failed backend c f)
    (fr : SqlFuzzyregion) :
    EndsAs (CallFailure failed) (cut.run backend fr) (cut.run (idealBackend S c f) fr) := by
  cases cut with
  | support => exact projectionOrEmpty_endsAs h _ _
  | core => exact projectionOrEmpty_endsAs h _ _
  | alphaCut alpha => exact (EndsAs.refl _).bind fun t => projectionOrEmpty_endsAs h _ _

/-- A point argument that is accepted is a point. -/
theorem pointFromEwkb_eq_ok_iff {ewkb : List UInt8} {p : PostgisPoint} :
    (idealBackend S c f).pointFromEwkb ewkb = .ok p ↔ p.ewkb = ewkb ∧ f.isPoint p = true := by
  simp only [idealBackend, PostgisPoint.fromEwkb]
  split_ifs with hnil
  -- no bytes are refused before the predicate is asked
  · constructor
    · nofun
    · rintro ⟨rfl, -⟩
      exact absurd hnil p.nonEmpty
  · rw [ok_bind]
    cases hpoint : f.isPoint ⟨ewkb, hnil⟩ with
    | false =>
      constructor
      · nofun
      · rintro ⟨rfl, hp⟩
        cases hpoint.symm.trans hp
    | true =>
      constructor
      · intro h
        obtain rfl := Except.ok.inj h
        exact ⟨rfl, hpoint⟩
      · rintro ⟨rfl, -⟩
        rfl

theorem fuzzyregionMembershipAtEwkb_endsAs (h : BackendAnswers failed backend c f) (f64 : F64Text)
    (fr : SqlFuzzyregion) (point : List UInt8) :
    EndsAs (CallFailure failed) (fuzzyregionMembershipAtEwkb backend f64 fr point)
      (fuzzyregionMembershipAtEwkb (idealBackend S c f) f64 fr point) := by
  refine (query_call_endsAs (h.pointFromEwkb point)).bind_of_ok fun p hp => ?_
  -- the operations outside the trait are only sent valid points
  obtain ⟨-, hvalid⟩ := pointFromEwkb_eq_ok_iff.mp (mapError_eq_ok_iff.mp hp)
  refine (query_call_endsAs (h.pointSrid p hvalid)).bind fun srid => ?_
  refine (EndsAs.refl _).bind fun _ => (readDomain_endsAs h f64 fr).bind fun domain => ?_
  refine EndsAs.bind ?_ fun _ => .refl _
  exact (domain.membershipAt_endsAs h.engine hvalid).mapError fun _ he => .api (.core he)

end

/-! ## Memberships -/

/-- A grade as SQL returns it; a point outside has the membership zero. -/
def degreeValue (x : WithBot (Alpha F64)) : F64 := x.recBotCoe Scalar.zero Alpha.value

theorem toRat_degreeValue (x : WithBot (Alpha F64)) : (degreeValue x).toRat = degree x := by
  cases x with
  | bot => exact F64.toRat_zero
  | coe a => rfl

theorem exists_bound_le_iff {b : ℚ} {x : WithBot (Alpha F64)} :
    (∃ a : Alpha F64, x = a ∧ b ≤ a.toRat) ↔
      0 < (degreeValue x).toRat ∧ b ≤ (degreeValue x).toRat := by
  rw [toRat_degreeValue]
  cases x with
  | bot => simp
  | coe a => simp [a.toRat_pos, WithBot.coe_inj]

section

variable {e : PointSetEngine PostgisGeometry PostgisPoint} {f : PointFunctions} {f64 : F64Text}
  {fr : SqlFuzzyregion} {m : F64}

theorem checkPointSrid_eq_ok_iff {regionSrid : Option Int32} {pointSrid : Int32} :
    checkPointSrid regionSrid pointSrid = (.ok () : Except (CallError S) Unit) ↔
      ∀ s, regionSrid = some s → s = pointSrid := by
  cases regionSrid with
  | none => simp [checkPointSrid]
  | some s => by_cases hs : s = pointSrid <;> simp [checkPointSrid, hs]

/-- The lookup in a value that can be decoded. -/
theorem membershipAt_of_toDomain {d : DomainFuzzyregion}
    (hd : fr.toDomain f64 (e.engine (PostgisError S)) = .ok d) (p : PostgisPoint) :
    ∃ a, d.membershipAt (e.engine (PostgisError S)) p = .ok a ∧
      a.elim Scalar.zero Alpha.value = degreeValue ((fr.meaning e).grade p) := by
  obtain ⟨a, ha, hgrade⟩ := (canonical_of_toDomain hd).membershipAt_eq p
  refine ⟨a, ha, ?_⟩
  rw [← meaning_of_toDomain hd, meaning_grade, hgrade]
  cases a <;> rfl

/-- **When a membership is returned, and which one**: the argument is a point in the reference
system of the region, the payload can be decoded, and its meaning takes the value at the point. -/
theorem fuzzyregionMembershipAtEwkb_eq_ok_iff {point : List UInt8} :
    fuzzyregionMembershipAtEwkb (idealBackend S e.toCrispEngine f) f64 fr point = .ok m ↔
      ∃ p : PostgisPoint, p.ewkb = point ∧ f.isPoint p = true ∧
        (∀ s, fr.srid = some s → s = f.pointSrid p) ∧
        (∃ d, fr.toDomain f64 (e.engine (PostgisError S)) = .ok d) ∧
        m = degreeValue ((fr.meaning e).grade p) := by
  have hsrid : ∀ p, (idealBackend S e.toCrispEngine f).pointSrid p = .ok (f.pointSrid p) :=
    fun _ => rfl
  simp only [fuzzyregionMembershipAtEwkb, hsrid, mapError_ok, bind_eq_ok_iff, mapError_eq_ok_iff,
    pointFromEwkb_eq_ok_iff, Except.ok.injEq, exists_eq_left', pure_eq_ok_iff]
  constructor
  · rintro ⟨p, ⟨hp, hpoint⟩, ⟨⟩, hs, d, hd, a, ha, rfl⟩
    obtain ⟨a', ha', hvalue⟩ := membershipAt_of_toDomain hd p
    obtain rfl := Except.ok.inj (ha.symm.trans ha')
    exact ⟨p, hp, hpoint, checkPointSrid_eq_ok_iff.mp hs, ⟨d, hd⟩, hvalue⟩
  · rintro ⟨p, hp, hpoint, hs, ⟨d, hd⟩, rfl⟩
    obtain ⟨a, ha, hvalue⟩ := membershipAt_of_toDomain hd p
    exact ⟨p, ⟨hp, hpoint⟩, (), checkPointSrid_eq_ok_iff.mpr hs, d, hd, a, ha, hvalue⟩

/-- A lookup that returns on a database that may fail, in any payload. -/
theorem lookup_eq_ok {spi : Spi S} (hspi : spi.Computes e.toCrispEngine f) {point : List UInt8}
    (h : fuzzyregionMembershipAtEwkb (postgisBackend spi) f64 fr point = .ok m) :
    ∃ p : PostgisPoint, p.ewkb = point ∧ (∃ d, fr.toDomain f64 (e.engine (PostgisError S)) = .ok d) ∧
      m = degreeValue ((fr.meaning e).grade p) := by
  have hideal := (fuzzyregionMembershipAtEwkb_endsAs (.of_computes hspi) f64 fr point).eq_of_ok h
  obtain ⟨p, hp, -, -, hd, hm⟩ := fuzzyregionMembershipAtEwkb_eq_ok_iff.mp hideal
  exact ⟨p, hp, hd, hm⟩

/-- A point of another reference system is refused, before the payload is decoded. -/
theorem fuzzyregionMembershipAtEwkb_mismatch {p : PostgisPoint} (hp : f.isPoint p = true)
    {s : Int32} (hs : fr.srid = some s) (hne : s ≠ f.pointSrid p) :
    fuzzyregionMembershipAtEwkb (idealBackend S e.toCrispEngine f) f64 fr p.ewkb =
      .error (.pointSridMismatch s (f.pointSrid p)) := by
  have hpoint : (idealBackend S e.toCrispEngine f).pointFromEwkb p.ewkb = .ok p :=
    pointFromEwkb_eq_ok_iff.mpr ⟨rfl, hp⟩
  have hsrid : (idealBackend S e.toCrispEngine f).pointSrid p = .ok (f.pointSrid p) := rfl
  rw [fuzzyregionMembershipAtEwkb, hpoint, mapError_ok, ok_bind, hsrid, mapError_ok, ok_bind, hs,
    checkPointSrid, if_pos (bne_iff_ne.mpr hne)]
  rfl

/-- The lookup in a value of the invariants, on a database that may fail. -/
theorem lookup_endsAs {spi : Spi S} (hspi : spi.Computes e.toCrispEngine f)
    (hfr : Canonical (e.engine (PostgisError S)) fr.stored.region) {p : PostgisPoint}
    (hp : f.isPoint p = true) (hsrid : ∀ s, fr.srid = some s → s = f.pointSrid p) :
    EndsAs (CallFailure Unanswered)
      (fuzzyregionMembershipAtEwkb (postgisBackend spi) f64 fr p.ewkb)
      (.ok (degreeValue ((fr.meaning e).grade p))) := by
  -- the region is canonical, so it can be decoded
  obtain ⟨d, hd, -⟩ := exists_toDomain f64 hfr
  have hideal := (fuzzyregionMembershipAtEwkb_eq_ok_iff (f := f)).mpr
    ⟨p, rfl, hp, hsrid, ⟨d, hd⟩, rfl⟩
  exact hideal ▸ fuzzyregionMembershipAtEwkb_endsAs (.of_computes hspi) f64 fr p.ewkb

/-- A projection of the payload, or the empty geometry in its place, covers what the projection of
the domain value does. -/
theorem covered_of_projectionOrEmpty (hempty : ∀ s, e.points (f.emptyMultipolygon s) = ∅)
    {raw : Option (List UInt8)} {cut : Option PostgisGeometry} (hsame : SameCut e raw cut)
    {srid : Option Int32} {ewkb : List UInt8}
    (h : projectionOrEmpty (idealBackend S e.toCrispEngine f) raw srid = .ok ewkb) :
    ∃ g : PostgisGeometry, g.ewkb = ewkb ∧ e.points g = e.covered cut := by
  cases raw with
  | some bytes =>
    obtain rfl := Except.ok.inj h
    cases cut with
    | none => exact hsame.elim
    | some geometry =>
      obtain ⟨hne, hpoints⟩ := hsame
      exact ⟨⟨bytes, hne⟩, rfl, hpoints.trans (e.covered_some geometry).symm⟩
  | none =>
    obtain rfl := Except.ok.inj h
    cases cut with
    | none => exact ⟨f.emptyMultipolygon srid, rfl, (hempty srid).trans e.covered_none.symm⟩
    | some geometry => exact hsame.elim

/-- A cut of a payload that can be decoded covers the points whose membership reaches its bound. -/
theorem SqlCut.points_of_run (hempty : ∀ s, e.points (f.emptyMultipolygon s) = ∅) (cut : SqlCut)
    {d : DomainFuzzyregion} (hd : fr.toDomain f64 (e.engine (PostgisError S)) = .ok d)
    {ewkb : List UInt8} (h : cut.run (idealBackend S e.toCrispEngine f) fr = .ok ewkb) :
    ∃ g : PostgisGeometry, g.ewkb = ewkb ∧ ∀ p, p ∈ e.points g ↔
      ∃ a : Alpha F64, (fr.meaning e).grade p = a ∧ cut.bound.toRat ≤ a.toRat := by
  have hsame := sameProjections_of_decode (toDomain_eq_ok_iff.mp hd)
  have hcanonical := canonical_of_toDomain hd
  -- every function looks for the cut at some threshold
  obtain ⟨raw, t, hbound, hraw, hproject⟩ : ∃ (raw : Option (List UInt8)) (t : AlphaThreshold F64),
      cut.bound = t.value ∧ SameCut e raw (d.alphaCut t) ∧
      projectionOrEmpty (idealBackend S e.toCrispEngine f) raw fr.srid = .ok ewkb := by
    cases cut with
    | support => exact ⟨_, ⟨Scalar.zero, rfl, rfl⟩, rfl, hsame.support, h⟩
    | core =>
      exact ⟨_, .ofAlpha Alpha.one, rfl, core_eq_alphaCut hcanonical.descending ▸ hsame.core, h⟩
    | alphaCut alpha =>
      obtain ⟨t, ht, hproject⟩ := bind_eq_ok_iff.mp h
      have hvalue := AlphaThreshold.value_of_tryFrom (mapError_eq_ok_iff.mp ht)
      exact ⟨_, t, hvalue.symm, hsame.alphaCut t, hproject⟩
  obtain ⟨g, hg, hpoints⟩ := covered_of_projectionOrEmpty hempty hraw hproject
  refine ⟨g, hg, fun p => ?_⟩
  rw [hpoints, hcanonical.mem_alphaCut_iff, ← meaning_grade, meaning_of_toDomain hd, hbound]
  rfl

end

end FuzzyRegion
