import FuzzyRegion.Core.Backend
import FuzzyRegion.Pg.Functions
import FuzzyRegion.Pg.Sites
import FuzzyRegion.Pg.Srid

/-!
# Statements

An SQL expression puts the constructors, the set operations and the transforms together. Every value
on the way is a datum, written by one call and read by the next, and every call sends queries to the
database. The calls of an expression are labelled, so that each of them may meet a backend of its
own; the columns of the row are datums.

## Main definitions

* `SqlExpr`: expressions, and `SqlExpr.eval`: their evaluation on datums
* `SqlExpr.run`: the evaluation on values
* `DatabaseFailure`: the errors through which a failure of the database ends a statement

## Main results

* `eval_intoDatum`: the evaluation on datums is that on values
* `eval_endsAs_of_computes`: on a database that may fail, a statement ends as it should or with a
  failure, and never with another value
-/

namespace FuzzyRegion

open Numeric Fallible SqlFuzzyregion

variable {S Call Column : Type}

/-- Why a statement is aborted. -/
inductive StatementError (S : Type) where
  | call (error : CallError S)
  | literal (error : LiteralError S)
  /-- A datum could not be read. -/
  | onDisk (error : StorageError)

/-- An expression of the type `fuzzyregion`. -/
inductive SqlExpr (Call Column : Type) where
  | column (name : Column)
  | literal (call : Call) (text : List Char)
  | fromEwkb (call : Call) (alphas : List (Option F64)) (geoms : List (Option (List UInt8)))
  | setOp (call : Call) (op : SetOp) (left right : SqlExpr Call Column)
  | normalize (call : Call) (arg : SqlExpr Call Column)
  | power (call : Call) (t : PowerTransform) (exponent : F64) (arg : SqlExpr Call Column)

/-- The argument of a call. -/
def readArgument (datum : Datum) : Outcome (StatementError S) SqlFuzzyregion :=
  (fromDatum datum).mapError fun error => .error (.onDisk error)

/-- A call inside a statement. -/
def liftStatement {α : Type} (result : Outcome (CallError S) α) : Outcome (StatementError S) α :=
  result.mapError (Stop.map .call)

namespace SqlExpr

variable (f64 : F64Text) (powf : F64 → F64 → F64) (backends : Call → PostgisBackend S)

/-! ## The calls -/

/-- The input function on a literal. -/
def callInput (call : Call) (text : List Char) : Outcome (StatementError S) SqlFuzzyregion :=
  (input f64 (backends call).engine text).mapError fun error => .error (.literal error)

def callFromEwkb (call : Call) (alphas : List (Option F64)) (geoms : List (Option (List UInt8))) :
    Outcome (StatementError S) SqlFuzzyregion :=
  liftStatement (liftCall ((fuzzyregionFromEwkb (backends call).engine alphas geoms).mapError .api))

def callSetOp (call : Call) (op : SetOp) (a b : SqlFuzzyregion) :
    Outcome (StatementError S) SqlFuzzyregion :=
  liftStatement ((op.runSql f64 (backends call).engine a b).mapError (Stop.map .api))

def callNormalize (call : Call) (fr : SqlFuzzyregion) :
    Outcome (StatementError S) SqlFuzzyregion :=
  liftStatement (fuzzyregionNormalize (backends call) f64 fr)

def callPower (call : Call) (t : PowerTransform) (exponent : F64) (fr : SqlFuzzyregion) :
    Outcome (StatementError S) SqlFuzzyregion :=
  liftStatement (t.runSql (backends call) f64 powf fr exponent)

/-! ## Evaluation -/

/-- The evaluation of an expression on the datums of a row, from left to right. -/
def eval (row : Column → Datum) : SqlExpr Call Column → Outcome (StatementError S) Datum
  | column name => return row name
  | literal call text => intoDatum <$> callInput f64 backends call text
  | fromEwkb call alphas geoms => intoDatum <$> callFromEwkb backends call alphas geoms
  | setOp call op left right => do
    let left ← left.eval row
    let right ← right.eval row
    let a ← readArgument left
    let b ← readArgument right
    intoDatum <$> callSetOp f64 backends call op a b
  | normalize call arg => do
    let arg ← arg.eval row
    let fr ← readArgument arg
    intoDatum <$> callNormalize f64 backends call fr
  | power call t exponent arg => do
    let arg ← arg.eval row
    let fr ← readArgument arg
    intoDatum <$> callPower f64 powf backends call t exponent fr

/-- The evaluation on values. -/
def run (row : Column → SqlFuzzyregion) :
    SqlExpr Call Column → Outcome (StatementError S) SqlFuzzyregion
  | column name => return row name
  | literal call text => callInput f64 backends call text
  | fromEwkb call alphas geoms => callFromEwkb backends call alphas geoms
  | setOp call op left right => do
    let a ← left.run row
    let b ← right.run row
    callSetOp f64 backends call op a b
  | normalize call arg => do
    let fr ← arg.run row
    callNormalize f64 backends call fr
  | power call t exponent arg => do
    let fr ← arg.run row
    callPower f64 powf backends call t exponent fr

theorem readArgument_intoDatum (fr : SqlFuzzyregion) :
    readArgument (S := S) (intoDatum fr) = .ok fr := by
  rw [readArgument, fromDatum_intoDatum, mapError_ok]

theorem map_intoDatum_bind {α : Type} (x : Outcome (StatementError S) SqlFuzzyregion)
    (k : Datum → Outcome (StatementError S) α) :
    (intoDatum <$> x >>= k) = x >>= fun fr => k (intoDatum fr) := by
  cases x <;> rfl

/-- The evaluation on datums is that on values: every datum on the way is read back. -/
theorem eval_intoDatum (row : Column → SqlFuzzyregion) (x : SqlExpr Call Column) :
    x.eval f64 powf backends (fun name => intoDatum (row name)) =
      intoDatum <$> x.run f64 powf backends row := by
  induction x with
  | column name => rfl
  | literal call text => rfl
  | fromEwkb call alphas geoms => rfl
  | setOp call op left right ihl ihr =>
    rw [eval, run, ihl, ihr]
    simp only [map_intoDatum_bind, readArgument_intoDatum, ok_bind, map_bind]
  | normalize call arg ih =>
    rw [eval, run, ih]
    simp only [map_intoDatum_bind, readArgument_intoDatum, ok_bind, map_bind]
  | power call t exponent arg ih =>
    rw [eval, run, ih]
    simp only [map_intoDatum_bind, readArgument_intoDatum, ok_bind, map_bind]

end SqlExpr

/-! ## Databases that fail -/

/-- A failure of the database, as an error of the SQL layer. -/
inductive ApiFailure (failed : PostgisError S → Prop) : ApiError S → Prop where
  | core {error : CoreError F64 (PostgisError S)} (h : BackendError failed error) :
      ApiFailure failed (.core error)
  | postgis {error : PostgisError S} (h : failed error) : ApiFailure failed (.postgis error)

/-- A failure of the database, as an error of a call. -/
inductive CallFailure (failed : PostgisError S → Prop) : CallError S → Prop where
  | api {error : ApiError S} (h : ApiFailure failed error) : CallFailure failed (.api error)

/-- A failure of the database, as the error that ends a statement. -/
inductive DatabaseFailure (failed : PostgisError S → Prop) : StatementError S → Prop where
  | call {error : CallError S} (h : CallFailure failed error) : DatabaseFailure failed (.call error)
  | literal {error : PostgisError S} (h : failed error) :
      DatabaseFailure failed (.literal (.postgis error))

theorem ApiFailure.not_never {error : ApiError S} : ¬ ApiFailure (fun _ => False) error := by
  rintro (⟨⟨hcore⟩⟩ | hpostgis)
  · exact hcore
  · exact hpostgis

theorem CallFailure.not_never {error : CallError S} : ¬ CallFailure (fun _ => False) error := by
  rintro ⟨hapi⟩
  exact hapi.not_never

section

variable {failed : PostgisError S → Prop}

theorem Stop.IsError.map {ε ε' : Type} {p : ε → Prop} {q : ε' → Prop} {f : ε → ε'}
    (h : ∀ e, p e → q (f e)) : ∀ stop, Stop.IsError p stop → Stop.IsError q (Stop.map f stop) := by
  rintro _ ⟨he⟩
  exact .error (h _ he)

theorem liftApi_endsAs {α : Type} {x y : Except (ApiError S) α}
    (h : EndsAs (ApiFailure failed) x y) :
    EndsAs (Stop.IsError (ApiFailure failed)) (liftApi x) (liftApi y) :=
  h.mapError fun _ => .error

theorem liftCall_endsAs {α : Type} {x y : Except (CallError S) α}
    (h : EndsAs (CallFailure failed) x y) :
    EndsAs (Stop.IsError (CallFailure failed)) (liftCall x) (liftCall y) :=
  h.mapError fun _ => .error

theorem liftStatement_endsAs {α : Type} {x y : Outcome (CallError S) α}
    (h : EndsAs (Stop.IsError (CallFailure failed)) x y) :
    EndsAs (Stop.IsError (DatabaseFailure failed)) (liftStatement x) (liftStatement y) :=
  h.mapError (Stop.IsError.map fun _ => .call)

end

section

variable {P : Type} {failed : PostgisError S → Prop} {valid : P → Prop}
  {engine : PostgisEngine P S} {c : CrispEngine PostgisGeometry P}

/-- Reading a value into the domain. -/
theorem toDomain_endsAs (h : Answers failed valid engine c) (f64 : F64Text) (fr : SqlFuzzyregion) :
    EndsAs failed (fr.toDomain f64 engine) (fr.toDomain f64 (c.engine (PostgisError S))) := by
  rw [toDomain, toDomain, decode_eq_canonicalize, decode_eq_canonicalize]
  refine (Fuzzyregion.canonicalize_endsAs h _).mapError ?_
  rintro _ ⟨herror⟩
  exact herror

theorem input_endsAs (h : Answers failed valid engine c) (f64 : F64Text) (text : List Char) :
    EndsAs (fun error => ∃ e, failed e ∧ error = .postgis e) (input f64 engine text)
      (input f64 (c.engine (PostgisError S)) text) := by
  refine (EndsAs.refl _).bind fun parsed => ?_
  refine ((toDomain_endsAs h f64 parsed).mapError fun e he => ⟨e, he, rfl⟩).bind fun domain => ?_
  exact .refl _

theorem fuzzyregionFromEwkb_endsAs (h : Answers failed valid engine c) (alphas : List (Option F64))
    (geoms : List (Option (List UInt8))) :
    EndsAs (ApiFailure failed) (fuzzyregionFromEwkb engine alphas geoms)
      (fuzzyregionFromEwkb (c.engine (PostgisError S)) alphas geoms) := by
  unfold fuzzyregionFromEwkb
  split_ifs
  · exact .refl _
  · refine (EndsAs.refl _).bind fun levels => ?_
    refine ((Fuzzyregion.canonicalize_endsAs h ⟨levels⟩).mapError fun _ => .core).bind fun _ => ?_
    exact .refl _

theorem SetOp.runSql_endsAs (op : SetOp) (h : Answers failed valid engine c) (f64 : F64Text)
    (a b : SqlFuzzyregion) :
    EndsAs (Stop.IsError (ApiFailure failed)) (op.runSql f64 engine a b)
      (op.runSql f64 (c.engine (PostgisError S)) a b) := by
  rw [op.runSql_eq, op.runSql_eq]
  have hread := fun fr => liftApi_endsAs ((toDomain_endsAs h f64 fr).mapError fun _ => .postgis)
  refine (hread a).bind fun left => (hread b).bind fun right => ?_
  refine ((op.run_endsAs h left right).mapError (Stop.IsError.map fun _ => .core)).bind fun _ => ?_
  exact .refl _

end

section

variable {failed : PostgisError S → Prop} {backend : PostgisBackend S}
  {c : CrispEngine PostgisGeometry PostgisPoint} {f : PointFunctions}

/-- Reading the argument of a call into the domain. -/
theorem readDomain_endsAs (h : BackendAnswers failed backend c f) (f64 : F64Text)
    (fr : SqlFuzzyregion) :
    EndsAs (CallFailure failed) ((fr.toDomain f64 backend.engine).mapError .postgis)
      ((fr.toDomain f64 (idealBackend S c f).engine).mapError .postgis) :=
  (toDomain_endsAs h.engine f64 fr).mapError fun _ he => .api (.postgis he)

theorem fuzzyregionNormalize_endsAs (h : BackendAnswers failed backend c f) (f64 : F64Text)
    (fr : SqlFuzzyregion) :
    EndsAs (Stop.IsError (CallFailure failed)) (fuzzyregionNormalize backend f64 fr)
      (fuzzyregionNormalize (idealBackend S c f) f64 fr) :=
  (liftCall_endsAs (readDomain_endsAs h f64 fr)).bind fun _ => .refl _

theorem PowerTransform.runSql_endsAs (t : PowerTransform) (h : BackendAnswers failed backend c f)
    (f64 : F64Text) (powf : F64 → F64 → F64) (fr : SqlFuzzyregion) (power : F64) :
    EndsAs (Stop.IsError (CallFailure failed)) (t.runSql backend f64 powf fr power)
      (t.runSql (idealBackend S c f) f64 powf fr power) := by
  rw [t.runSql_eq, t.runSql_eq]
  exact (liftCall_endsAs (readDomain_endsAs h f64 fr)).bind fun _ => .refl _

end

namespace SqlExpr

variable {failed : PostgisError S → Prop} {backends : Call → PostgisBackend S}
  {c : CrispEngine PostgisGeometry PostgisPoint} {f : PointFunctions}

/-- On backends that may fail, an expression ends as it should, or with a failure. -/
theorem eval_endsAs (h : ∀ call, BackendAnswers failed (backends call) c f) (f64 : F64Text)
    (powf : F64 → F64 → F64) (row : Column → Datum) (x : SqlExpr Call Column) :
    EndsAs (Stop.IsError (DatabaseFailure failed)) (x.eval f64 powf backends row)
      (x.eval f64 powf (fun _ => idealBackend S c f) row) := by
  induction x with
  | column name => exact .refl _
  | literal call text =>
    refine EndsAs.map ((input_endsAs (h call).engine f64 text).mapError ?_) _
    rintro _ ⟨e, he, rfl⟩
    exact .error (.literal he)
  | fromEwkb call alphas geoms =>
    refine EndsAs.map (liftStatement_endsAs (liftCall_endsAs ?_)) _
    exact (fuzzyregionFromEwkb_endsAs (h call).engine alphas geoms).mapError fun _ => .api
  | setOp call op left right ihl ihr =>
    refine ihl.bind fun left => ihr.bind fun right => ?_
    refine (EndsAs.refl _).bind fun a => (EndsAs.refl _).bind fun b => ?_
    refine EndsAs.map (liftStatement_endsAs ?_) _
    exact (op.runSql_endsAs (h call).engine f64 a b).mapError (Stop.IsError.map fun _ => .api)
  | normalize call arg ih =>
    refine ih.bind fun arg => (EndsAs.refl _).bind fun fr => ?_
    exact EndsAs.map (liftStatement_endsAs (fuzzyregionNormalize_endsAs (h call) f64 fr)) _
  | power call t exponent arg ih =>
    refine ih.bind fun arg => (EndsAs.refl _).bind fun fr => ?_
    exact EndsAs.map (liftStatement_endsAs (t.runSql_endsAs (h call) f64 powf fr exponent)) _

/-- On a reliable database an expression is evaluated as on the ideal backend. -/
theorem eval_eq_of_reliable {spis : Call → Spi S} (h : ∀ call, (spis call).Computes c f)
    (hreliable : ∀ call, (spis call).Reliable) (f64 : F64Text) (powf : F64 → F64 → F64)
    (row : Column → Datum) (x : SqlExpr Call Column) :
    x.eval f64 powf (fun call => postgisBackend (spis call)) row =
      x.eval f64 powf (fun _ => idealBackend S c f) row := by
  refine (eval_endsAs (fun call => .of_failsAs (h call) (hreliable call)) f64 powf row x).eq_of_never
    ?_
  rintro _ ⟨hcall | hliteral⟩
  · exact hcall.not_never
  · exact hliteral

/-- **A statement on a database that may fail ends as it should, or with a failure**, whichever of
its queries fail. So two runs of a statement that both return have returned the same bytes. -/
theorem eval_endsAs_of_computes {spis : Call → Spi S} (h : ∀ call, (spis call).Computes c f)
    (f64 : F64Text) (powf : F64 → F64 → F64) (row : Column → Datum) (x : SqlExpr Call Column) :
    EndsAs (Stop.IsError (DatabaseFailure Unanswered))
      (x.eval f64 powf (fun call => postgisBackend (spis call)) row)
      (x.eval f64 powf (fun _ => idealBackend S c f) row) ∧
    ∀ spis' : Call → Spi S, (∀ call, (spis' call).Computes c f) → ∀ datum datum',
      x.eval f64 powf (fun call => postgisBackend (spis call)) row = .ok datum →
      x.eval f64 powf (fun call => postgisBackend (spis' call)) row = .ok datum' →
      datum = datum' := by
  have hends := eval_endsAs (fun call => .of_computes (h call)) f64 powf row x
  refine ⟨hends, fun spis' h' datum datum' hdatum hdatum' => ?_⟩
  exact hends.ok_unique (eval_endsAs (fun call => .of_computes (h' call)) f64 powf row x) hdatum
    hdatum'

/-- The union of a column and the normalization of a literal. -/
def shoals : SqlExpr ℕ Unit :=
  .setOp 0 .union (.column ()) (.normalize 1 (.literal 2 "v1;srid=1;levels=[1:0106]".toList))

/-- A database that is lost. -/
def lostDatabase : Spi Unit where
  getBytes _ _ := .error ()
  getBool _ _ := .error ()
  getI32 _ _ := .error ()
  getF64 _ _ := .error ()
  getString _ _ := .error ()

/-- A database of cells that is lost for one call. -/
def flaky (call : ℕ) : Spi Unit := if call = 1 then lostDatabase else siteDatabase Unit

theorem flaky_computes (call : ℕ) :
    (flaky call).Computes siteEngine.toCrispEngine siteFunctions := by
  unfold flaky
  split_ifs
  · constructor
    all_goals
      intros
      exact nofun
  · exact siteDatabase_computes

theorem eval_endsAs_of_computes_shoals :
    EndsAs (Stop.IsError (DatabaseFailure Unanswered))
      (shoals.eval bitsText F64.exactPower (fun call => postgisBackend (flaky call))
        (fun _ => intoDatum ⟨declaring 1⟩))
      (shoals.eval bitsText F64.exactPower
        (fun _ => idealBackend Unit siteEngine.toCrispEngine siteFunctions)
        (fun _ => intoDatum ⟨declaring 1⟩)) :=
  (eval_endsAs_of_computes flaky_computes bitsText F64.exactPower _ shoals).1

end SqlExpr

end FuzzyRegion
