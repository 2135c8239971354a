import FuzzyRegion.Pg.Statements
import FuzzyRegion.Pg.Validation

/-!
# Sessions

A session is a list of statements, each of which stores the value of an expression in a column. A
statement that is aborted changes nothing. Whatever calls put a value together, and whichever
queries fail on the way, the payload that is stored in the end satisfies the documented invariants,
and the table is one that a reliable database reaches.

## Main definitions

* `Statement`, `Statement.execute`, `session`: what a session does to the columns

## Main results

* `SqlExpr.run_canonical`: a value that an expression returns stores a canonical region
* `storedInvariants_iff_canonical`: such a payload satisfies the documented invariants
* `session_keeps_invariants`: every column satisfies them after every session, and failures of the
  database amount to leaving out statements
-/

namespace FuzzyRegion

open Numeric Fallible Fuzzyregion SqlFuzzyregion

variable {P S Call Column : Type}

/-! ## Stored results -/

theorem region_of_stores {d : DomainFuzzyregion} {stored : StoredFuzzyregion}
    (h : Stores d stored) : stored.region = d :=
  (stores_region stored).region_unique h

theorem region_of_fromDomain {d : DomainFuzzyregion} {v : SqlFuzzyregion}
    (h : fromDomain d = (.ok v : Except (PostgisError S) _)) : v.stored.region = d :=
  region_of_stores (fromDomain_eq_ok_iff.mp h)

/-- A region has one payload at most. -/
theorem Stores.stored_unique {d : DomainFuzzyregion} {stored stored' : StoredFuzzyregion}
    (h : Stores d stored) (h' : Stores d stored') : stored = stored' := by
  have hlevel : Relator.RightUnique StoresLevel := by
    intro level l l' hl hl'
    obtain ⟨alpha, ewkb, _⟩ := l
    obtain ⟨alpha', ewkb', _⟩ := l'
    obtain rfl : alpha = alpha' := hl.1.trans hl'.1.symm
    obtain rfl : ewkb = ewkb' := hl.2.trans hl'.2.symm
    rfl
  have hlevels := hlevel.forall₂ h.levels h'.levels
  have hsrid := h.srid.trans h'.srid.symm
  obtain ⟨⟨⟩, srid, levels, _⟩ := stored
  obtain ⟨⟨⟩, srid', levels', _⟩ := stored'
  obtain rfl : srid = srid' := hsrid
  obtain rfl : levels = levels' := hlevels
  rfl

/-- A value read into the domain is canonical. -/
theorem canonical_of_toDomain {f64 : F64Text} {engine : PostgisEngine P S} {fr : SqlFuzzyregion}
    {d : DomainFuzzyregion} (h : fr.toDomain f64 engine = .ok d) : Canonical engine d := by
  have hdecode := toDomain_eq_ok_iff.mp h
  rw [decode_eq_canonicalize] at hdecode
  exact canonicalize_canonical hdecode

/-- A remapped canonical region is canonical when it could be stored. -/
theorem canonical_of_stored_remap {engine : PostgisEngine P S} {d r : DomainFuzzyregion}
    (hd : Canonical engine d) (h : Remapped d r) {stored : StoredFuzzyregion}
    (hstores : Stores r stored) : Canonical engine r := by
  rw [h.canonical_iff hd, ← region_of_stores hstores]
  exact descending_region stored

/-! ## The calls -/

section

variable {f64 : F64Text} {engine : PostgisEngine P S} {v : SqlFuzzyregion}

theorem canonical_of_input {text : List Char} (h : input f64 engine text = .ok v) :
    Canonical engine v.stored.region := by
  simp only [input, bind_eq_ok_iff, mapError_eq_ok_iff] at h
  obtain ⟨parsed, -, domain, hdomain, hv⟩ := h
  rw [region_of_fromDomain hv]
  exact canonical_of_toDomain hdomain

/-- The levels behind a constructor call that returns. -/
theorem fuzzyregionFromEwkb_eq_ok {alphas : List (Option F64)} {geoms : List (Option (List UInt8))}
    (h : fuzzyregionFromEwkb engine alphas geoms = .ok v) :
    ∃ levels : List (Level F64 PostgisGeometry), ∃ d : DomainFuzzyregion,
      ((alphas.zip geoms).zipIdx.mapM fun ((alpha, ewkb), index) =>
        levelOfElements index alpha ewkb) = (.ok levels : Except (ApiError S) _) ∧
      fromLevels levels engine = .ok d ∧ Stores d v.stored := by
  unfold fuzzyregionFromEwkb at h
  -- arrays of two lengths are not accepted
  split_ifs at h
  simp only [bind_eq_ok_iff, mapError_eq_ok_iff, fromDomain_eq_ok_iff] at h
  obtain ⟨levels, hlevels, d, hd, hstores⟩ := h
  exact ⟨levels, d, hlevels, hd, hstores⟩

theorem canonical_of_fromEwkb {alphas : List (Option F64)} {geoms : List (Option (List UInt8))}
    (h : fuzzyregionFromEwkb engine alphas geoms = .ok v) : Canonical engine v.stored.region := by
  obtain ⟨levels, d, -, hd, hstores⟩ := fuzzyregionFromEwkb_eq_ok h
  rw [region_of_stores hstores]
  exact canonicalize_canonical hd

/-- A set operation that returns has compatible operands. -/
theorem SetOp.compatible_of_run (op : SetOp) {a b r : DomainFuzzyregion}
    (h : op.run a b engine = .ok r) : Compatible a b := by
  intro s t hs ht
  by_contra hne
  cases h.symm.trans (op.run_eq_error hs ht hne)

/-- The domain values behind a set operation that returns. -/
theorem runSql_eq_ok (op : SetOp) {a b : SqlFuzzyregion} (h : op.runSql f64 engine a b = .ok v) :
    ∃ left right result : DomainFuzzyregion, a.toDomain f64 engine = .ok left ∧
      b.toDomain f64 engine = .ok right ∧ op.run left right engine = .ok result ∧
      Stores result v.stored := by
  rw [op.runSql_eq] at h
  simp only [binarySetOperation, bind_eq_ok_iff, liftApi, mapError_eq_ok_iff,
    fromDomain_eq_ok_iff] at h
  obtain ⟨left, hleft, right, hright, result, hresult, hstores⟩ := h
  exact ⟨left, right, result, hleft, hright, hresult, hstores⟩

theorem canonical_of_runSql (op : SetOp) {a b : SqlFuzzyregion}
    (h : op.runSql f64 engine a b = .ok v) : Canonical engine v.stored.region := by
  obtain ⟨left, right, result, -, -, hresult, hstores⟩ := runSql_eq_ok op h
  rw [region_of_stores hstores]
  exact setOp_canonical hresult

end

section

variable {f64 : F64Text} {powf : F64 → F64 → F64} {backend : PostgisBackend S}
  {fr v : SqlFuzzyregion}

/-- The domain values behind a normalization that returns. -/
theorem fuzzyregionNormalize_eq_ok (h : fuzzyregionNormalize backend f64 fr = .ok v) :
    ∃ d r : DomainFuzzyregion, fr.toDomain f64 backend.engine = .ok d ∧
      d.normalizeMembership = (.ok r : Outcome (CallError S) _) ∧ Stores r v.stored := by
  simp only [fuzzyregionNormalize, liftCall, bind_eq_ok_iff, mapError_eq_ok_iff,
    fromDomain_eq_ok_iff] at h
  obtain ⟨d, hd, r, hr, hstores⟩ := h
  exact ⟨d, r, hd, hr, hstores⟩

/-- The domain values behind a power transform that returns. -/
theorem runSql_power_eq_ok (t : PowerTransform) {power : F64}
    (h : t.runSql backend f64 powf fr power = .ok v) :
    ∃ d r : DomainFuzzyregion, fr.toDomain f64 backend.engine = .ok d ∧
      t.run powf d power = .ok r ∧ Stores r v.stored := by
  rw [t.runSql_eq] at h
  simp only [unaryMembershipTransform, liftCall, bind_eq_ok_iff, mapError_eq_ok_iff,
    fromDomain_eq_ok_iff] at h
  obtain ⟨d, hd, r, hr, hstores⟩ := h
  exact ⟨d, r, hd, hr, hstores⟩

theorem canonical_of_normalize (h : fuzzyregionNormalize backend f64 fr = .ok v) :
    Canonical backend.engine v.stored.region := by
  obtain ⟨d, r, hd, hr, hstores⟩ := fuzzyregionNormalize_eq_ok h
  have hcanonical := canonical_of_toDomain hd
  obtain ⟨r', hr', hremapped, -⟩ := exists_normalizeMembership (ε := CallError S) hcanonical
  obtain rfl : r = r' := Except.ok.inj (hr.symm.trans hr')
  rw [region_of_stores hstores]
  exact canonical_of_stored_remap hcanonical hremapped hstores

theorem canonical_of_power (t : PowerTransform) {power : F64}
    (h : t.runSql backend f64 powf fr power = .ok v) :
    Canonical backend.engine v.stored.region := by
  obtain ⟨d, r, hd, hr, hstores⟩ := runSql_power_eq_ok t h
  rw [t.run_eq, check_bind_eq_ok_iff] at hr
  rw [region_of_stores hstores]
  exact canonical_of_stored_remap (canonical_of_toDomain hd) (remapMembershipValues_eq_ok hr.2).1
    hstores

end

/-! ## Expressions -/

/-- A value that an expression returns stores a canonical region, whatever its arguments store. -/
theorem SqlExpr.run_canonical {f64 : F64Text} {powf : F64 → F64 → F64}
    {backends : Call → PostgisBackend S} {engine : PostgisEngine PostgisPoint S}
    (hbackends : ∀ call, (backends call).engine = engine) {row : Column → SqlFuzzyregion}
    (hrow : ∀ name, Canonical engine (row name).stored.region) {x : SqlExpr Call Column}
    {v : SqlFuzzyregion} (h : x.run f64 powf backends row = .ok v) :
    Canonical engine v.stored.region := by
  -- no induction: every call canonicalizes its arguments first
  cases x with
  | column name =>
    obtain rfl := pure_eq_ok_iff.mp h
    exact hrow name
  | literal call text =>
    rw [← hbackends call]
    exact canonical_of_input (mapError_eq_ok_iff.mp h)
  | fromEwkb call alphas geoms =>
    rw [← hbackends call]
    simp only [run, callFromEwkb, liftStatement, liftCall, mapError_eq_ok_iff] at h
    exact canonical_of_fromEwkb h
  | setOp call op left right =>
    rw [← hbackends call]
    simp only [run, callSetOp, liftStatement, bind_eq_ok_iff, mapError_eq_ok_iff] at h
    obtain ⟨a, -, b, -, hrun⟩ := h
    exact canonical_of_runSql op hrun
  | normalize call arg =>
    rw [← hbackends call]
    simp only [run, callNormalize, liftStatement, bind_eq_ok_iff, mapError_eq_ok_iff] at h
    obtain ⟨fr, -, hrun⟩ := h
    exact canonical_of_normalize hrun
  | power call t exponent arg =>
    rw [← hbackends call]
    simp only [run, callPower, liftStatement, bind_eq_ok_iff, mapError_eq_ok_iff] at h
    obtain ⟨fr, -, hrun⟩ := h
    exact canonical_of_power t hrun

/-! ## The documented invariants -/

/-- A payload satisfies the documented invariants when it stores a canonical region. -/
theorem storedInvariants_iff_canonical {c : CrispEngine PostgisGeometry P}
    (hidem : ∀ g, c.normalizeMultipolygon (c.normalizeMultipolygon g) = c.normalizeMultipolygon g)
    {stored : StoredFuzzyregion} :
    StoredInvariants c stored ↔ Canonical (c.engine (PostgisError S)) stored.region := by
  constructor
  · intro h
    exact {
      descending := descending_region stored
      normalized := fun l hl => ⟨l.geometry, congrArg Except.ok (h.normalized l hl)⟩
      nonEmpty := fun l hl => congrArg Except.ok (h.nonEmpty l hl)
      sameSrid := fun l hl => ⟨_, h.declared l hl, rfl⟩
      nested := h.strictlyNested.imp fun _ _ hnest => congrArg Except.ok hnest.1
      distinct := h.strictlyNested.imp fun _ _ hnest => congrArg Except.ok hnest.2 }
  · intro h
    refine ⟨fun l hl => ?_, fun l hl => ?_, fun l hl => ?_, ?_⟩
    · exact Except.ok.inj (h.normalize_eq (normalizeIdempotent_engine hidem) hl)
    · exact Except.ok.inj (h.nonEmpty l hl)
    · obtain ⟨s, hs, hls⟩ := h.sameSrid l hl
      exact hs.trans (congrArg some (Except.ok.inj hls).symm)
    · exact (LevelStack.isChain_and h.nested h.distinct).imp fun _ _ hnest =>
        ⟨Except.ok.inj hnest.1, Except.ok.inj hnest.2⟩

/-- Validation accepts it. -/
theorem isValid_of_storedInvariants {f64 : F64Text} {texts : WrappedTexts S}
    {e : RegularizedEngine PostgisGeometry P} {v : SqlFuzzyregion}
    (h : StoredInvariants e.toCrispEngine v.stored) :
    fuzzyregionIsValid f64 texts (e.engine (PostgisError S)) v = true :=
  isValid_iff_repairable.mpr (storedInvariants_iff.mp h).1

/-! ## Sessions -/

/-- A statement that stores the value of an expression in a column. -/
structure Statement (Call Column : Type) where
  target : Column
  expr : SqlExpr Call Column

section

variable [DecidableEq Column] (f64 : F64Text) (powf : F64 → F64 → F64)

/-- A statement that is aborted changes nothing. -/
def Statement.execute (backends : Call → PostgisBackend S) (row : Column → Datum)
    (statement : Statement Call Column) : Column → Datum :=
  match statement.expr.eval f64 powf backends row with
  | .ok datum => Function.update row statement.target datum
  | .error _ => row

/-- The columns after a list of statements, each with its own backends. -/
def session (statements : List (Statement Call Column × (Call → PostgisBackend S)))
    (row : Column → Datum) : Column → Datum :=
  statements.foldl (fun row step => step.1.execute f64 powf step.2 row) row

variable {f64 powf} {c : CrispEngine PostgisGeometry PostgisPoint} {f : PointFunctions}

/-! ### Failures -/

theorem Statement.execute_of_error {backends : Call → PostgisBackend S}
    {statement : Statement Call Column} {row : Column → Datum} {stop : Stop (StatementError S)}
    (h : statement.expr.eval f64 powf backends row = .error stop) :
    statement.execute f64 powf backends row = row := by
  unfold execute
  rw [h]

/-- On a database that may fail, a statement does what it should or nothing. -/
theorem Statement.execute_or_skip {spis : Call → Spi S} (hspis : ∀ call, (spis call).Computes c f)
    (statement : Statement Call Column) (row : Column → Datum) :
    statement.execute f64 powf (fun call => postgisBackend (spis call)) row = row ∨
      statement.execute f64 powf (fun call => postgisBackend (spis call)) row =
        statement.execute f64 powf (fun _ => idealBackend S c f) row := by
  rcases statement.expr.eval_endsAs (fun call => .of_computes (hspis call)) f64 powf row with
    ⟨stop, -, hstop⟩ | heq
  · exact Or.inl (execute_of_error hstop)
  · right
    unfold execute
    rw [heq]

/-- Failures of the database amount to leaving out statements. -/
theorem exists_kept (statements : List (Statement Call Column × (Call → Spi S)))
    (hspis : ∀ step ∈ statements, ∀ call, (step.2 call).Computes c f) (row : Column → Datum) :
    ∃ kept : List (Statement Call Column), kept.Sublist (statements.map Prod.fst) ∧
      session f64 powf (statements.map fun step => (step.1, fun call => postgisBackend (step.2 call)))
        row = session f64 powf (kept.map fun statement => (statement, fun _ => idealBackend S c f))
          row := by
  induction statements generalizing row with
  | nil => exact ⟨[], .slnil, rfl⟩
  | cons step statements ih =>
    obtain ⟨hstep, hrest⟩ := List.forall_mem_cons.mp hspis
    rw [List.map_cons, List.map_cons, session, List.foldl_cons]
    rcases step.1.execute_or_skip hstep row with hskip | hideal
    -- a query has failed: the statement is left out
    · obtain ⟨kept, hkept, hsession⟩ := ih hrest row
      rw [hskip]
      exact ⟨kept, hkept.cons _, hsession⟩
    · obtain ⟨kept, hkept, hsession⟩ := ih hrest
        (step.1.execute f64 powf (fun _ => idealBackend S c f) row)
      rw [hideal]
      exact ⟨step.1 :: kept, hkept.cons_cons _, hsession⟩

/-! ### Invariants -/

/-- On the ideal backend a statement stores a value that its expression returns, or nothing. -/
theorem Statement.execute_intoDatum (statement : Statement Call Column)
    (row : Column → SqlFuzzyregion) :
    statement.execute f64 powf (fun _ => idealBackend S c f) (fun name => intoDatum (row name)) =
        (fun name => intoDatum (row name)) ∨
      ∃ v, statement.expr.run f64 powf (fun _ => idealBackend S c f) row = .ok v ∧
        statement.execute f64 powf (fun _ => idealBackend S c f) (fun name => intoDatum (row name)) =
          fun name => intoDatum (Function.update row statement.target v name) := by
  unfold execute
  rw [statement.expr.eval_intoDatum]
  cases statement.expr.run f64 powf (fun _ => idealBackend S c f) row with
  | error stop => exact Or.inl rfl
  | ok v => exact Or.inr ⟨v, rfl, (Function.comp_update intoDatum row statement.target v).symm⟩

/-- What holds of every value that an expression returns holds of the columns after a session on the
ideal backend. -/
theorem session_induction {holds : SqlFuzzyregion → Prop}
    (hrun : ∀ (row : Column → SqlFuzzyregion) (x : SqlExpr Call Column) (v : SqlFuzzyregion),
      (∀ name, holds (row name)) → x.run f64 powf (fun _ => idealBackend S c f) row = .ok v → holds v)
    (statements : List (Statement Call Column)) (row : Column → SqlFuzzyregion)
    (hrow : ∀ name, holds (row name)) :
    ∃ row' : Column → SqlFuzzyregion, (∀ name, holds (row' name)) ∧
      session f64 powf (statements.map fun statement => (statement, fun _ => idealBackend S c f))
        (fun name => intoDatum (row name)) = fun name => intoDatum (row' name) := by
  induction statements generalizing row with
  | nil => exact ⟨row, hrow, rfl⟩
  | cons statement statements ih =>
    rw [List.map_cons, session, List.foldl_cons]
    rcases statement.execute_intoDatum row with hsame | ⟨v, hv, hupdate⟩
    · rw [hsame]
      exact ih row hrow
    · rw [hupdate]
      exact ih _ ((Function.forall_update_iff row fun _ v => holds v).mpr
        ⟨hrun row _ v hrow hv, fun name _ => hrow name⟩)

variable (f64 powf) in
/-- **Every column satisfies the documented invariants after every session**, whatever its
statements compute and whichever queries fail, if it did before; and the columns are those that some
of the statements, in their order, leave on a database that does not fail. -/
theorem session_keeps_invariants {e : RegularizedEngine PostgisGeometry PostgisPoint}
    (hidem : ∀ g, e.normalizeMultipolygon (e.normalizeMultipolygon g) = e.normalizeMultipolygon g)
    (statements : List (Statement Call Column × (Call → Spi S)))
    (hspis : ∀ step ∈ statements, ∀ call, (step.2 call).Computes e.toCrispEngine f)
    (row : Column → SqlFuzzyregion)
    (hrow : ∀ name, StoredInvariants e.toCrispEngine (row name).stored) (texts : WrappedTexts S) :
    ∃ (kept : List (Statement Call Column)) (row' : Column → SqlFuzzyregion),
      kept.Sublist (statements.map Prod.fst) ∧
      session f64 powf (statements.map fun step => (step.1, fun call => postgisBackend (step.2 call)))
        (fun name => intoDatum (row name)) = (fun name => intoDatum (row' name)) ∧
      session f64 powf
        (kept.map fun statement => (statement, fun _ => idealBackend S e.toCrispEngine f))
        (fun name => intoDatum (row name)) = (fun name => intoDatum (row' name)) ∧
      ∀ name, StoredInvariants e.toCrispEngine (row' name).stored ∧
        fuzzyregionIsValid f64 texts (e.engine (PostgisError S)) (row' name) = true := by
  obtain ⟨kept, hsublist, hkept⟩ := exists_kept statements hspis fun name => intoDatum (row name)
  obtain ⟨row', hrow', hsession⟩ := session_induction (f := f)
    (fun row x v hrow h => (storedInvariants_iff_canonical hidem).mpr
      (x.run_canonical (fun _ => rfl)
        (fun name => (storedInvariants_iff_canonical hidem).mp (hrow name)) h)) kept row hrow
  refine ⟨kept, row', hsublist, hkept.trans hsession, hsession, fun name => ⟨hrow' name, ?_⟩⟩
  exact isValid_of_storedInvariants (hrow' name)

/-- A column that starts without levels, and two statements; a query of the first one fails. -/
theorem session_keeps_invariants_shoals :
    ∃ row : Unit → SqlFuzzyregion,
      session bitsText F64.exactPower
          [(⟨(), SqlExpr.shoals⟩, fun call => postgisBackend (SqlExpr.flaky call)),
            (⟨(), SqlExpr.shoals⟩, fun _ => postgisBackend (siteDatabase Unit))]
          (fun _ => intoDatum ⟨.empty none⟩) = (fun name => intoDatum (row name)) ∧
      ∀ name, StoredInvariants siteEngine.toCrispEngine (row name).stored := by
  obtain ⟨-, row, -, hsession, -, hrow⟩ := session_keeps_invariants bitsText F64.exactPower
    site_normalize_idem [((⟨(), SqlExpr.shoals⟩ : Statement ℕ Unit), SqlExpr.flaky),
      (⟨(), SqlExpr.shoals⟩, fun _ => siteDatabase Unit)]
    (by
      simp only [List.forall_mem_cons]
      exact ⟨SqlExpr.flaky_computes, fun _ => siteDatabase_computes, nofun⟩)
    (fun _ => ⟨.empty none⟩) (fun _ => ⟨nofun, nofun, nofun, .nil⟩) ⟨fun _ => [], fun _ => []⟩
  exact ⟨row, hsession, fun name => (hrow name).1⟩

end

end FuzzyRegion
