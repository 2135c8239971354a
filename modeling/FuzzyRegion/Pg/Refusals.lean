import FuzzyRegion.Pg.Sessions
import FuzzyRegion.Pg.Transformed

/-!
# Refused statements

Why a statement can be aborted, when `powf` rounds correctly. It panics only where a concentration
meets an alpha whose power is too small, whatever the datums hold and the database answers. On a
reliable database and on values of the invariants, every other error has a reason in the expression
itself: one of its leaves is refused, two of its inputs have different SRIDs, a power is not accepted,
a transform rounds two alphas to one, or a limit of the storage is exceeded. No call ever fails
because its argument cannot be read.

## Main definitions

* `SqlExpr.IsSub`: subexpressions
* `SqlExpr.PanicsAt`, `SqlExpr.Licensed`: the reasons

## Main results

* `SqlExpr.eval_panics_only_at`: the only panic of a statement
* `SqlExpr.refusals_are_licensed`: every refusal has a reason
-/

namespace FuzzyRegion

open Numeric Fallible Fuzzyregion SqlFuzzyregion StoredFuzzyregion

/-! ## Calls that do not panic -/

/-- An error that is returned. -/
abbrev NotPanic {ε : Type} : Stop ε → Prop := Stop.IsError fun _ => True

theorem NotPanic.map {ε ε' : Type} {f : ε → ε'} :
    ∀ stop, NotPanic stop → NotPanic (Stop.map f stop) :=
  Stop.IsError.map fun _ _ => trivial

theorem mapError_notPanic {ε ε' α : Type} {f : ε → ε'} (x : Except ε α) :
    ErrorsIn NotPanic (x.mapError fun error => .error (f error)) := by
  intro stop h
  obtain ⟨error, -, rfl⟩ := mapError_eq_error_iff.mp h
  exact .error trivial

section

variable {F G P E : Type} [Scalar F]

theorem liftCore_notPanic {α : Type} (x : CoreResult F E α) : ErrorsIn NotPanic (liftCore x) :=
  mapError_notPanic x

theorem setOperation_notPanic {engine : GeometryEngine G P E} {a b : Fuzzyregion F G}
    {combine : Alpha F → Outcome (CoreError F E) (Option G)}
    (h : ∀ t, ErrorsIn NotPanic (combine t)) :
    ErrorsIn NotPanic (a.setOperation b engine combine) := by
  refine (liftCore_notPanic _).bind fun _ _ => ?_
  refine (ErrorsIn.foldlM (fun levels t => ?_) _ _).bind fun levels _ => liftCore_notPanic _
  exact (h t).bind fun geometry _ => liftCore_notPanic _

end

/-- A set operation never panics: a complement stays in the unit interval. -/
theorem SetOp.run_notPanic {F G P E : Type} [LawfulScalar F] (op : SetOp) (a b : Fuzzyregion F G)
    (engine : GeometryEngine G P E) : ErrorsIn NotPanic (op.run a b engine) := by
  cases op with
  | union =>
    apply setOperation_notPanic
    intro t
    dsimp only
    cases a.alphaCut (.ofAlpha t) <;> cases b.alphaCut (.ofAlpha t)
    case some.some left right => exact liftCore_notPanic _
    all_goals exact .ok _
  | intersection =>
    apply setOperation_notPanic
    intro t
    dsimp only
    cases a.alphaCut (.ofAlpha t) <;> cases b.alphaCut (.ofAlpha t)
    case some.some left right => exact liftCore_notPanic _
    all_goals exact .ok _
  | difference =>
    apply setOperation_notPanic
    intro t
    rw [AlphaThreshold.tryFrom_complement]
    refine (ErrorsIn.ok _).bind fun threshold _ => ?_
    cases a.alphaCut (.ofAlpha t) <;> cases b.strictAlphaCut threshold
    case some.some left right => exact liftCore_notPanic _
    all_goals exact .ok _

variable {S Call Column : Type}

section

variable {P : Type} {f64 : F64Text} {engine : PostgisEngine P S}

theorem liftApi_notPanic {α : Type} (x : Except (ApiError S) α) : ErrorsIn NotPanic (liftApi x) :=
  mapError_notPanic x

theorem liftCall_notPanic {α : Type} (x : Except (CallError S) α) :
    ErrorsIn NotPanic (liftCall x) :=
  mapError_notPanic x

theorem runSql_notPanic (op : SetOp) (a b : SqlFuzzyregion) :
    ErrorsIn NotPanic (op.runSql f64 engine a b) := by
  rw [op.runSql_eq]
  refine (liftApi_notPanic _).bind fun left _ => (liftApi_notPanic _).bind fun right _ => ?_
  refine ((op.run_notPanic left right engine).mapError NotPanic.map).bind fun result _ => ?_
  exact liftApi_notPanic _

theorem fuzzyregionNormalize_notPanic {backend : PostgisBackend S} (fr : SqlFuzzyregion) :
    ErrorsIn NotPanic (fuzzyregionNormalize backend f64 fr) := by
  refine (liftCall_notPanic _).bind fun d hd => ?_
  have hcanonical := canonical_of_toDomain (mapError_eq_ok_iff.mp (mapError_eq_ok_iff.mp hd))
  obtain ⟨r, hr, -⟩ := exists_normalizeMembership (ε := CallError S) hcanonical
  rw [hr]
  exact liftCall_notPanic _

end

/-! ## Transforms -/

theorem powerOf_mono {y : F64} (hy : 0 ≤ y.toRat) : Monotone (powerOf y) := by
  intro a b hab
  refine Real.rpow_le_rpow (cast_toRat_mem a).1.le ?_ (Rat.cast_nonneg.mpr hy)
  exact Rat.cast_le.mpr (Alpha.le_def.mp hab)

/-- Why a power transform stops: its power is not accepted, or a concentration meets an alpha whose
power is too small. -/
theorem PowerTransform.errorsIn_run {G : Type} (t : PowerTransform) {powf : F64 → F64 → F64}
    (hpowf : F64.CorrectlyRounded powf) (v : Fuzzyregion F64 G) (power : F64) :
    ErrorsIn (fun stop => (∃ error, validateMembershipPower power = .error error ∧
        stop = .error error) ∨
      t = .concentrate ∧ (∃ l ∈ v.levels, powerOf power l.alpha ≤ 1 / 2 ^ 1075) ∧
        stop = .panic "membership remapping must preserve alpha validity")
      (t.run powf v power) := by
  cases hvalid : validateMembershipPower power with
  | error error =>
    rw [t.run_eq, hvalid]
    exact .error (Or.inl ⟨error, rfl, rfl⟩)
  | ok =>
    intro stop hstop
    have hlow : ¬ ∀ l ∈ v.levels, 1 / 2 ^ 1075 < powerOf (t.exponent power) l.alpha := by
      intro hall
      obtain ⟨r, hr⟩ := (t.exists_run_iff hpowf hvalid).mpr hall
      cases hr.symm.trans hstop
    refine Or.inr ?_
    rw [t.run_eq_panic hpowf hvalid hlow] at hstop
    cases t with
    | concentrate =>
      push Not at hlow
      exact ⟨rfl, hlow, (Except.error.inj hstop).symm⟩
    | dilate =>
      -- the reciprocal of an accepted power is at most one, so that no alpha is lowered
      refine absurd (fun l _ => ?_) hlow
      exact l.alpha.lt_toRat.trans_le (le_powerOf (PowerTransform.reciprocal_mem hvalid).2.2 l.alpha)

namespace SqlExpr

/-! ## Panics -/

/-- `IsSub y x`: the expression `y` occurs in `x`. -/
inductive IsSub : SqlExpr Call Column → SqlExpr Call Column → Prop where
  | refl (x : SqlExpr Call Column) : IsSub x x
  | left {y left right : SqlExpr Call Column} {call : Call} {op : SetOp} (h : IsSub y left) :
      IsSub y (.setOp call op left right)
  | right {y left right : SqlExpr Call Column} {call : Call} {op : SetOp} (h : IsSub y right) :
      IsSub y (.setOp call op left right)
  | normalize {y arg : SqlExpr Call Column} {call : Call} (h : IsSub y arg) :
      IsSub y (.normalize call arg)
  | power {y arg : SqlExpr Call Column} {call : Call} {t : PowerTransform} {exponent : F64}
      (h : IsSub y arg) : IsSub y (.power call t exponent arg)

section

variable (f64 : F64Text) (powf : F64 → F64 → F64) (backends : Call → PostgisBackend S)
  (row : Column → Datum)

/-- A concentration in the expression meets an alpha whose power is at most half the least
subnormal. -/
inductive PanicsAt (x : SqlExpr Call Column) : Prop where
  | concentrate {call : Call} {exponent : F64} {arg : SqlExpr Call Column} {datum : Datum}
      {fr : SqlFuzzyregion} {d : DomainFuzzyregion} {l : Level F64 PostgisGeometry}
      (hsub : IsSub (.power call .concentrate exponent arg) x)
      (harg : arg.eval f64 powf backends row = .ok datum) (hfr : fromDatum datum = .ok fr)
      (hd : fr.toDomain f64 (backends call).engine = .ok d) (hl : l ∈ d.levels)
      (hlow : (l.alpha.toRat : ℝ) ^ (exponent.toRat : ℝ) ≤ 1 / 2 ^ 1075) : PanicsAt x

/-- A stop that is no panic, or the panic of a concentration in the expression. -/
def StopsAt {ε : Type} (x : SqlExpr Call Column) (stop : Stop ε) : Prop :=
  NotPanic stop ∨ PanicsAt f64 powf backends row x ∧
    stop = .panic "membership remapping must preserve alpha validity"

variable {f64 powf backends row}

theorem PanicsAt.of_sub {y x : SqlExpr Call Column}
    (hsub : ∀ z : SqlExpr Call Column, IsSub z y → IsSub z x)
    (h : PanicsAt f64 powf backends row y) : PanicsAt f64 powf backends row x := by
  obtain ⟨hy, harg, hfr, hd, hl, hlow⟩ := h
  exact ⟨hsub _ hy, harg, hfr, hd, hl, hlow⟩

theorem StopsAt.map {ε ε' : Type} {f : ε → ε'} {x : SqlExpr Call Column} (stop : Stop ε)
    (h : StopsAt f64 powf backends row x stop) :
    StopsAt f64 powf backends row x (Stop.map f stop) := by
  rcases h with h | ⟨hx, rfl⟩
  · exact Or.inl (NotPanic.map stop h)
  · exact Or.inr ⟨hx, rfl⟩

theorem readArgument_notPanic (datum : Datum) : ErrorsIn NotPanic (readArgument (S := S) datum) :=
  mapError_notPanic _

theorem liftStatement_notPanic {α : Type} {x : Outcome (CallError S) α} (h : ErrorsIn NotPanic x) :
    ErrorsIn NotPanic (liftStatement x) :=
  h.mapError NotPanic.map

theorem stopsAt_of_notPanic {ε α : Type} {x : SqlExpr Call Column} {y : Outcome ε α}
    (h : ErrorsIn NotPanic y) : ErrorsIn (StopsAt f64 powf backends row x) y :=
  h.mono fun _ => Or.inl

/-- A power transform in an expression. -/
theorem errorsIn_callPower (hpowf : F64.CorrectlyRounded powf) {call : Call} {t : PowerTransform}
    {exponent : F64} {arg : SqlExpr Call Column} {datum : Datum} {fr : SqlFuzzyregion}
    (harg : arg.eval f64 powf backends row = .ok datum) (hfr : fromDatum datum = .ok fr) :
    ErrorsIn (StopsAt f64 powf backends row (.power call t exponent arg))
      (callPower f64 powf backends call t exponent fr) := by
  rw [callPower, t.runSql_eq]
  refine ErrorsIn.mapError StopsAt.map ?_
  refine (stopsAt_of_notPanic (liftCall_notPanic _)).bind fun d hd => ?_
  refine ErrorsIn.bind ((t.errorsIn_run hpowf d exponent).mapError fun stop hstop => ?_) fun r _ =>
    stopsAt_of_notPanic (liftCall_notPanic _)
  rcases hstop with ⟨error, -, rfl⟩ | ⟨rfl, ⟨l, hl, hlow⟩, rfl⟩
  · exact Or.inl (.error trivial)
  · exact Or.inr ⟨⟨.refl _, harg, hfr, mapError_eq_ok_iff.mp (mapError_eq_ok_iff.mp hd), hl, hlow⟩,
      rfl⟩

/-- Every stop of an evaluation is an error, or the panic of a concentration. -/
theorem errorsIn_eval (hpowf : F64.CorrectlyRounded powf) (x : SqlExpr Call Column) :
    ErrorsIn (StopsAt f64 powf backends row x) (x.eval f64 powf backends row) := by
  have hsub : ∀ {y z : SqlExpr Call Column}, (∀ w : SqlExpr Call Column, IsSub w y → IsSub w z) →
      ErrorsIn (StopsAt f64 powf backends row y) (y.eval f64 powf backends row) →
      ErrorsIn (StopsAt f64 powf backends row z) (y.eval f64 powf backends row) := fun h hy =>
    hy.mono fun _ => Or.imp_right (And.imp_left (PanicsAt.of_sub h))
  induction x with
  | column name => exact .ok _
  | literal call text => exact stopsAt_of_notPanic ((mapError_notPanic _).map _)
  | fromEwkb call alphas geoms =>
    exact stopsAt_of_notPanic ((liftStatement_notPanic (liftCall_notPanic _)).map _)
  | setOp call op left right ihl ihr =>
    refine (hsub (fun _ => .left) ihl).bind fun left _ =>
      (hsub (fun _ => .right) ihr).bind fun right _ => stopsAt_of_notPanic ?_
    refine (readArgument_notPanic left).bind fun a _ =>
      (readArgument_notPanic right).bind fun b _ => ?_
    exact (liftStatement_notPanic ((runSql_notPanic op a b).mapError NotPanic.map)).map _
  | normalize call arg ih =>
    refine (hsub (fun _ => .normalize) ih).bind fun arg _ => stopsAt_of_notPanic ?_
    refine (readArgument_notPanic arg).bind fun fr _ => ?_
    exact (liftStatement_notPanic (fuzzyregionNormalize_notPanic fr)).map _
  | power call t exponent arg ih =>
    refine (hsub (fun _ => .power) ih).bind fun datum harg => ?_
    refine (stopsAt_of_notPanic (readArgument_notPanic datum)).bind fun fr hfr => ?_
    exact (errorsIn_callPower hpowf harg (mapError_eq_ok_iff.mp hfr)).map _

/-- The parts of an expression that returns have returned. -/
theorem IsSub.exists_eval {y x : SqlExpr Call Column} (h : IsSub y x) {datum : Datum}
    (hx : x.eval f64 powf backends row = .ok datum) :
    ∃ datum', y.eval f64 powf backends row = .ok datum' := by
  induction h generalizing datum with
  | refl => exact ⟨datum, hx⟩
  | left _ ih =>
    obtain ⟨left, hleft, -⟩ := bind_eq_ok_iff.mp hx
    exact ih hleft
  | right _ ih =>
    obtain ⟨_, -, hrest⟩ := bind_eq_ok_iff.mp hx
    obtain ⟨right, hright, -⟩ := bind_eq_ok_iff.mp hrest
    exact ih hright
  | normalize _ ih =>
    obtain ⟨arg, harg, -⟩ := bind_eq_ok_iff.mp hx
    exact ih harg
  | power _ ih =>
    obtain ⟨arg, harg, -⟩ := bind_eq_ok_iff.mp hx
    exact ih harg

/-- **The only panic of a statement**, whatever its datums hold and the database answers, as long as
`powf` is correctly rounded: a concentration meets an alpha whose power is at most half the least
subnormal. A statement in which one does never returns. -/
theorem eval_panics_only_at (hpowf : F64.CorrectlyRounded powf) (x : SqlExpr Call Column) :
    (∀ message, x.eval f64 powf backends row = .error (.panic message) →
      PanicsAt f64 powf backends row x ∧
        message = "membership remapping must preserve alpha validity") ∧
    (PanicsAt f64 powf backends row x → ∀ datum, x.eval f64 powf backends row ≠ .ok datum) := by
  constructor
  · intro message h
    rcases errorsIn_eval hpowf x _ h with hnot | ⟨hx, hmessage⟩
    · cases hnot
    · exact ⟨hx, Stop.panic.inj hmessage⟩
  · rintro ⟨hsub, harg, hfr, hd, hl, hlow⟩ datum hx
    obtain ⟨datum', hpower⟩ := hsub.exists_eval hx
    -- the concentration has returned, so every power is large enough
    simp only [eval, harg, ok_bind, readArgument, hfr, mapError_ok, map_eq_ok_iff, callPower,
      liftStatement, mapError_eq_ok_iff] at hpower
    obtain ⟨v, hv, -⟩ := hpower
    obtain ⟨d', r, hd', hr, -⟩ := runSql_power_eq_ok .concentrate hv
    obtain rfl := Except.ok.inj (hd.symm.trans hd')
    obtain ⟨hvalid, -⟩ := PowerTransform.concentrate.image_of_run hpowf hr
    exact ((PowerTransform.concentrate.exists_run_iff hpowf hvalid).mp ⟨r, hr⟩ _ hl).not_ge hlow

/-- An expression without concentrations does not panic, also when a query fails. -/
theorem eval_panics_only_at_shoals :
    ¬ ∃ message, shoals.eval bitsText F64.exactPower (fun call => postgisBackend (flaky call))
      (fun _ => intoDatum ⟨declaring 1⟩) = .error (.panic message) := by
  rintro ⟨message, h⟩
  obtain ⟨⟨hsub, -⟩, -⟩ :=
    (eval_panics_only_at F64.correctlyRounded_exactPower shoals).1 message h
  -- neither the column nor the normalized literal is a concentration
  rcases hsub with _ | hcolumn | hnormalize
  · cases hcolumn
  · cases hnormalize with
    | normalize hliteral => cases hliteral

end

end SqlExpr

/-! ## Reasons -/

/-- The last step of a call. -/
theorem store_errorsIn {ε : Type} {allowed : StorageError → Prop} {d : DomainFuzzyregion}
    {wrap : PostgisError S → ε} (h : ErrorsIn (fun error => ∃ e, error = .storage e ∧ allowed e)
      (fromDomain d : Except (PostgisError S) SqlFuzzyregion)) :
    ErrorsIn (fun stop => ∃ e, allowed e ∧ stop = .error (wrap (.storage e)))
      (((fromDomain d).mapError wrap).mapError Stop.error) := by
  intro stop hstop
  obtain ⟨_, herror, rfl⟩ := mapError_eq_error_iff.mp hstop
  obtain ⟨error, hd, rfl⟩ := mapError_eq_error_iff.mp herror
  obtain ⟨e, rfl, he⟩ := h error hd
  exact ⟨e, he, rfl⟩

/-- A value that stores a canonical region is read into the domain, with its kept SRID. -/
theorem exists_toDomain {P : Type} (f64 : F64Text) {e : RegularizedEngine PostgisGeometry P}
    {v : SqlFuzzyregion} (hv : Canonical (e.engine (PostgisError S)) v.stored.region) :
    ∃ d : DomainFuzzyregion, v.toDomain f64 (e.engine (PostgisError S)) = .ok d ∧
      Canonical (e.engine (PostgisError S)) d ∧ d.srid = keptSrid v := by
  obtain ⟨d, hd, hcanonical, hsrid⟩ := decode_of_stores hv (stores_region v.stored)
  exact ⟨d, toDomain_eq_ok_iff.mpr hd, hcanonical, hsrid⟩

namespace SqlExpr

/-- The expressions that are not built from others. -/
inductive IsLeaf : SqlExpr Call Column → Prop where
  | column (name : Column) : IsLeaf (.column name)
  | literal (call : Call) (text : List Char) : IsLeaf (.literal call text)
  | fromEwkb (call : Call) (alphas : List (Option F64)) (geoms : List (Option (List UInt8))) :
      IsLeaf (.fromEwkb call alphas geoms)

section

variable (S) (f64 : F64Text) (powf : F64 → F64 → F64)
  (e : RegularizedEngine PostgisGeometry PostgisPoint) (f : PointFunctions)
  (row : Column → SqlFuzzyregion)

/-- The evaluation on values, with a database that does not fail. -/
abbrev runIdeal (x : SqlExpr Call Column) : Outcome (StatementError S) SqlFuzzyregion :=
  x.run f64 powf (fun _ => idealBackend S e.toCrispEngine f) row

/-- A leaf of the expression keeps the SRID. -/
inductive OffersSrid (x : SqlExpr Call Column) (s : Int32) : Prop where
  | leaf {y : SqlExpr Call Column} {v : SqlFuzzyregion} (hsub : IsSub y x) (hleaf : IsLeaf y)
      (hrun : y.runIdeal S f64 powf e f row = .ok v) (hsrid : keptSrid v = some s) : OffersSrid x s

/-- A transform whose exact images no middles separate, so that two of them round to one alpha. -/
inductive Merges : SqlExpr Call Column → Prop where
  | normalize {call : Call} {arg : SqlExpr Call Column} {fr : SqlFuzzyregion} {d : DomainFuzzyregion}
      (harg : arg.runIdeal S f64 powf e f row = .ok fr)
      (hd : fr.toDomain f64 (e.engine (PostgisError S)) = .ok d)
      (h : ¬ ∀ max, d.maxAlpha = some max → Separated (quotient max) d) :
      Merges (.normalize call arg)
  | power {call : Call} {t : PowerTransform} {exponent : F64} {arg : SqlExpr Call Column}
      {fr : SqlFuzzyregion} {d : DomainFuzzyregion}
      (harg : arg.runIdeal S f64 powf e f row = .ok fr)
      (hd : fr.toDomain f64 (e.engine (PostgisError S)) = .ok d)
      (h : ¬ Separated (powerOf (t.exponent exponent)) d) : Merges (.power call t exponent arg)

/-- The reasons for which an expression can be refused. -/
inductive Licensed (x : SqlExpr Call Column) : Stop (StatementError S) → Prop where
  | leaf {y : SqlExpr Call Column} {stop : Stop (StatementError S)} (hsub : IsSub y x)
      (hleaf : IsLeaf y) (h : y.runIdeal S f64 powf e f row = .error stop) : Licensed x stop
  | mixedSrid {s t : Int32} (hs : OffersSrid S f64 powf e f row x s)
      (ht : OffersSrid S f64 powf e f row x t) (hne : s ≠ t) :
      Licensed x (.error (.call (.core (.mixedOperandSrid s t))))
  | power {call : Call} {t : PowerTransform} {exponent : F64} {arg : SqlExpr Call Column}
      {error : MembershipTransformError F64} (hsub : IsSub (.power call t exponent arg) x)
      (h : validateMembershipPower exponent = .error error) :
      Licensed x (.error (.call (.transform error)))
  | concentrate {call : Call} {exponent : F64} {arg : SqlExpr Call Column} {fr : SqlFuzzyregion}
      {d : DomainFuzzyregion} {l : Level F64 PostgisGeometry}
      (hsub : IsSub (.power call .concentrate exponent arg) x)
      (harg : arg.runIdeal S f64 powf e f row = .ok fr)
      (hd : fr.toDomain f64 (e.engine (PostgisError S)) = .ok d) (hl : l ∈ d.levels)
      (hlow : powerOf exponent l.alpha ≤ 1 / 2 ^ 1075) :
      Licensed x (.panic "membership remapping must preserve alpha validity")
  | duplicate {y : SqlExpr Call Column} {a : Alpha F64} (hsub : IsSub y x)
      (h : Merges S f64 powf e f row y) :
      Licensed x (.error (.call (.postgis (.storage (.duplicateAlpha a)))))
  | limit {error : StorageError} (h : ExceedsLimit error) :
      Licensed x (.error (.call (.postgis (.storage error))))

variable {S f64 powf e f row}

theorem OffersSrid.of_sub {y x : SqlExpr Call Column} {s : Int32}
    (hsub : ∀ z : SqlExpr Call Column, IsSub z y → IsSub z x)
    (h : OffersSrid S f64 powf e f row y s) : OffersSrid S f64 powf e f row x s := by
  obtain ⟨hy, hleaf, hrun, hsrid⟩ := h
  exact ⟨hsub _ hy, hleaf, hrun, hsrid⟩

theorem Licensed.of_sub {y x : SqlExpr Call Column} {stop : Stop (StatementError S)}
    (hsub : ∀ z : SqlExpr Call Column, IsSub z y → IsSub z x)
    (h : Licensed S f64 powf e f row y stop) : Licensed S f64 powf e f row x stop := by
  cases h with
  | leaf hy hleaf h => exact .leaf (hsub _ hy) hleaf h
  | mixedSrid hs ht hne => exact .mixedSrid (hs.of_sub hsub) (ht.of_sub hsub) hne
  | power hy h => exact .power (hsub _ hy) h
  | concentrate hy harg hd hl hlow => exact .concentrate (hsub _ hy) harg hd hl hlow
  | duplicate hy h => exact .duplicate (hsub _ hy) h
  | limit h => exact .limit h

/-- On the ideal backend the value of an expression stores a canonical region. -/
theorem runIdeal_canonical
    (hrow : ∀ name, Canonical (e.engine (PostgisError S)) (row name).stored.region)
    {x : SqlExpr Call Column} {v : SqlFuzzyregion}
    (h : x.runIdeal S f64 powf e f row = .ok v) :
    Canonical (e.engine (PostgisError S)) v.stored.region :=
  x.run_canonical (fun _ => rfl) hrow h

theorem srid_of_keptSrid {v : SqlFuzzyregion} {s : Int32} (h : keptSrid v = some s) :
    v.stored.srid = some s := by
  unfold keptSrid at h
  split_ifs at h
  exact h

/-- The domain value of a result has the kept SRID. -/
theorem srid_of_toDomain
    (hrow : ∀ name, Canonical (e.engine (PostgisError S)) (row name).stored.region)
    {x : SqlExpr Call Column} {v : SqlFuzzyregion} (h : x.runIdeal S f64 powf e f row = .ok v)
    {d : DomainFuzzyregion} (hd : v.toDomain f64 (e.engine (PostgisError S)) = .ok d) :
    d.srid = keptSrid v := by
  obtain ⟨d', hd', -, hsrid⟩ := exists_toDomain f64 (runIdeal_canonical hrow h)
  obtain rfl := Except.ok.inj (hd.symm.trans hd')
  exact hsrid

/-- The SRID that a value keeps is one that a leaf keeps. -/
theorem offersSrid_of_run
    (hrow : ∀ name, Canonical (e.engine (PostgisError S)) (row name).stored.region)
    {x : SqlExpr Call Column} {v : SqlFuzzyregion} (h : x.runIdeal S f64 powf e f row = .ok v)
    {s : Int32} (hs : keptSrid v = some s) : OffersSrid S f64 powf e f row x s := by
  induction x generalizing v s with
  | column name => exact .leaf (.refl _) (.column name) h hs
  | literal call text => exact .leaf (.refl _) (.literal call text) h hs
  | fromEwkb call alphas geoms => exact .leaf (.refl _) (.fromEwkb call alphas geoms) h hs
  | setOp call op left right ihl ihr =>
    obtain ⟨a, ha, hrest⟩ := bind_eq_ok_iff.mp h
    obtain ⟨b, hb, hcall⟩ := bind_eq_ok_iff.mp hrest
    simp only [callSetOp, liftStatement, mapError_eq_ok_iff] at hcall
    obtain ⟨dl, dr, result, hdl, hdr, hresult, hstores⟩ := runSql_eq_ok op hcall
    obtain ⟨r, hr, hsrid, -⟩ := op.run_eq_ok (canonical_of_toDomain hdl) (canonical_of_toDomain hdr)
      (op.compatible_of_run hresult)
    obtain rfl := Except.ok.inj (hresult.symm.trans hr)
    -- the result has the SRID of one of the operands
    rw [srid_of_toDomain hrow ha hdl, srid_of_toDomain hrow hb hdr, ← hstores.srid,
      srid_of_keptSrid hs] at hsrid
    rcases Option.or_eq_some_iff.mp hsrid.symm with hsa | ⟨-, hsb⟩
    · exact (ihl ha hsa).of_sub fun _ => .left
    · exact (ihr hb hsb).of_sub fun _ => .right
  | normalize call arg ih =>
    obtain ⟨fr, hfr, hcall⟩ := bind_eq_ok_iff.mp h
    obtain ⟨d, r, hd, hr, hstores⟩ := fuzzyregionNormalize_eq_ok (mapError_eq_ok_iff.mp hcall)
    obtain ⟨r', hr', hremapped, -⟩ :=
      exists_normalizeMembership (ε := CallError S) (canonical_of_toDomain hd)
    obtain rfl := Except.ok.inj (hr.symm.trans hr')
    refine (ih hfr ?_).of_sub fun _ => .normalize
    rw [← srid_of_toDomain hrow hfr hd, ← hremapped.srid, ← hstores.srid, srid_of_keptSrid hs]
  | power call t exponent arg ih =>
    obtain ⟨fr, hfr, hcall⟩ := bind_eq_ok_iff.mp h
    obtain ⟨d, r, hd, hr, hstores⟩ := runSql_power_eq_ok t (mapError_eq_ok_iff.mp hcall)
    rw [t.run_eq, check_bind_eq_ok_iff] at hr
    have hremapped := (remapMembershipValues_eq_ok hr.2).1
    refine (ih hfr ?_).of_sub fun _ => .power
    rw [← srid_of_toDomain hrow hfr hd, ← hremapped.srid, ← hstores.srid, srid_of_keptSrid hs]

/-! ## The calls on values of the invariants -/

/-- A set operation is refused for the SRIDs of its operands, or for a limit of the storage. -/
theorem errorsIn_runSql (op : SetOp) {a b : SqlFuzzyregion}
    (ha : Canonical (e.engine (PostgisError S)) a.stored.region)
    (hb : Canonical (e.engine (PostgisError S)) b.stored.region) :
    ErrorsIn (fun stop => (∃ s t, keptSrid a = some s ∧ keptSrid b = some t ∧ s ≠ t ∧
        stop = .error (.core (.mixedOperandSrid s t))) ∨
      ∃ error, ExceedsLimit error ∧ stop = .error (.postgis (.storage error)))
      (op.runSql f64 (e.engine (PostgisError S)) a b) := by
  obtain ⟨left, hleft, hlc, hls⟩ := exists_toDomain f64 ha
  obtain ⟨right, hright, hrc, hrs⟩ := exists_toDomain f64 hb
  rw [op.runSql_eq,
    binarySetOperation_eq (toDomain_eq_ok_iff.mp hleft) (toDomain_eq_ok_iff.mp hright)]
  by_cases hcompat : Compatible left right
  · obtain ⟨r, hr, -⟩ := op.run_eq_ok (E := PostgisError S) hlc hrc hcompat
    rw [hr]
    have hstore := fromDomain_errorsIn_of_canonical (S := S) (setOp_canonical hr)
    exact (store_errorsIn hstore).mono fun _ => Or.inr
  · -- the operands are refused before any geometry is computed
    have hdiff : ∃ s t, left.srid = some s ∧ right.srid = some t ∧ s ≠ t := by
      simpa [Compatible] using hcompat
    obtain ⟨s, t, hs, ht, hne⟩ := hdiff
    rw [op.run_eq_error hs ht hne]
    exact .error (Or.inl ⟨s, t, hls ▸ hs, hrs ▸ ht, hne, rfl⟩)

/-- A normalization is refused for two quotients that round to one alpha, or for a limit of the
storage. -/
theorem errorsIn_normalize {fr : SqlFuzzyregion} {d : DomainFuzzyregion}
    (hd : fr.toDomain f64 (e.engine (PostgisError S)) = .ok d) :
    ErrorsIn (fun stop => ∃ error, (ExceedsLimit error ∨ (∃ a, error = .duplicateAlpha a) ∧
        ¬ ∀ max, d.maxAlpha = some max → Separated (quotient max) d) ∧
        stop = .error (.postgis (.storage error)))
      (fuzzyregionNormalize (idealBackend S e.toCrispEngine f) f64 fr) := by
  have hcanonical := canonical_of_toDomain hd
  obtain ⟨r, hr, hremapped, hle, hdesc⟩ :=
    normalizeMembership_descending_iff (ε := CallError S) hcanonical
  have hsrid := SameAlphas.srid_ne_none ⟨rfl, rfl⟩ hremapped hcanonical
  have hideal : fr.toDomain f64 (idealBackend S e.toCrispEngine f).engine = .ok d := hd
  rw [fuzzyregionNormalize, hideal, ← hdesc]
  show ErrorsIn _ (d.normalizeMembership >>= fun r =>
    liftCall ((fromDomain r).mapError CallError.postgis))
  rw [hr]
  exact store_errorsIn (fromDomain_errorsIn hsrid hle)

/-- A power transform is refused for its power, for two powers that round to one alpha, or for a
limit of the storage, and it panics for a power that is too small. -/
theorem errorsIn_power (hpowf : F64.CorrectlyRounded powf) (t : PowerTransform)
    {fr : SqlFuzzyregion} {exponent : F64} {d : DomainFuzzyregion}
    (hd : fr.toDomain f64 (e.engine (PostgisError S)) = .ok d) :
    ErrorsIn (fun stop => (∃ error, validateMembershipPower exponent = .error error ∧
          stop = .error (.transform error)) ∨
        (t = .concentrate ∧ (∃ l ∈ d.levels, powerOf exponent l.alpha ≤ 1 / 2 ^ 1075) ∧
          stop = .panic "membership remapping must preserve alpha validity") ∨
        ∃ error, (ExceedsLimit error ∨ (∃ a, error = .duplicateAlpha a) ∧
          ¬ Separated (powerOf (t.exponent exponent)) d) ∧
          stop = .error (.postgis (.storage error)))
      (t.runSql (idealBackend S e.toCrispEngine f) f64 powf fr exponent) := by
  have hideal : fr.toDomain f64 (idealBackend S e.toCrispEngine f).engine = .ok d := hd
  rw [t.runSql_eq, unaryMembershipTransform, hideal]
  show ErrorsIn _ ((t.run powf d exponent).mapError (Stop.map CallError.transform) >>= fun r =>
    liftCall ((fromDomain r).mapError CallError.postgis))
  refine ErrorsIn.bind ((t.errorsIn_run hpowf d exponent).mapError ?_) fun r hr => ?_
  · rintro _ (⟨error, herror, rfl⟩ | ⟨rfl, hlow, rfl⟩)
    · exact Or.inl ⟨error, herror, rfl⟩
    · exact Or.inr (Or.inl ⟨rfl, hlow, rfl⟩)
  -- the powers are stored unless two of them round to one alpha
  · obtain ⟨hvalid, himage⟩ := t.image_of_run hpowf (mapError_eq_ok_iff.mp hr)
    have hunit := t.inUnit_powerOf hvalid (v := d)
    have hcanonical := canonical_of_toDomain hd
    have hsrid := SameAlphas.srid_ne_none ⟨rfl, rfl⟩ himage.toRemapped hcanonical
    have hle := himage.pairwise_le hunit (powerOf_mono (t.exponent_nonneg hvalid).2) hcanonical
    rw [← himage.descending_iff hunit]
    exact (store_errorsIn (fromDomain_errorsIn hsrid hle)).mono fun _ => Or.inr ∘ Or.inr

/-! ## Expressions -/

/-- Every stop of an expression on values of the invariants has a reason. -/
theorem errorsIn_runIdeal (hpowf : F64.CorrectlyRounded powf)
    (hrow : ∀ name, Canonical (e.engine (PostgisError S)) (row name).stored.region)
    (x : SqlExpr Call Column) :
    ErrorsIn (Licensed S f64 powf e f row x) (x.runIdeal S f64 powf e f row) := by
  -- a stop of a part is one of the whole, and what a part returns is canonical
  induction x with
  | column name => exact .ok _
  | literal call text => exact fun stop h => .leaf (.refl _) (.literal call text) h
  | fromEwkb call alphas geoms =>
    exact fun stop h => .leaf (.refl _) (.fromEwkb call alphas geoms) h
  | setOp call op left right ihl ihr =>
    refine (ihl.mono fun _ => .of_sub fun _ => .left).bind fun a ha =>
      (ihr.mono fun _ => .of_sub fun _ => .right).bind fun b hb => ?_
    intro stop h
    obtain ⟨_, hcall, rfl⟩ := mapError_eq_error_iff.mp h
    obtain ⟨_, hrun, rfl⟩ := mapError_eq_error_iff.mp hcall
    rcases errorsIn_runSql op (runIdeal_canonical hrow ha) (runIdeal_canonical hrow hb) _ hrun with
      ⟨s, t, hs, ht, hne, rfl⟩ | ⟨error, herror, rfl⟩
    -- the operands have kept the SRIDs of two leaves
    · exact .mixedSrid ((offersSrid_of_run hrow ha hs).of_sub fun _ => .left)
        ((offersSrid_of_run hrow hb ht).of_sub fun _ => .right) hne
    · exact .limit herror
  | normalize call arg ih =>
    refine (ih.mono fun _ => .of_sub fun _ => .normalize).bind fun fr hfr => ?_
    obtain ⟨d, hd, -⟩ := exists_toDomain f64 (runIdeal_canonical hrow hfr)
    intro stop h
    obtain ⟨_, hrun, rfl⟩ := mapError_eq_error_iff.mp h
    obtain ⟨error, hlimit | ⟨⟨a, rfl⟩, hnot⟩, rfl⟩ := errorsIn_normalize hd _ hrun
    · exact .limit hlimit
    · exact .duplicate (.refl _) (.normalize hfr hd hnot)
  | power call t exponent arg ih =>
    refine (ih.mono fun _ => .of_sub fun _ => .power).bind fun fr hfr => ?_
    obtain ⟨d, hd, -⟩ := exists_toDomain f64 (runIdeal_canonical hrow hfr)
    intro stop h
    obtain ⟨_, hrun, rfl⟩ := mapError_eq_error_iff.mp h
    rcases errorsIn_power hpowf t hd _ hrun with ⟨error, herror, rfl⟩ | ⟨rfl, ⟨l, hl, hlow⟩, rfl⟩ |
      ⟨error, hlimit | ⟨⟨a, rfl⟩, hnot⟩, rfl⟩
    · exact .power (.refl _) herror
    · exact .concentrate (.refl _) hfr hd hl hlow
    · exact .limit hlimit
    · exact .duplicate (.refl _) (.power hfr hd hnot)

/-- The parts of an expression that returns a value have returned one. -/
theorem IsSub.exists_runIdeal {y x : SqlExpr Call Column} (h : IsSub y x) {v : SqlFuzzyregion}
    (hx : x.runIdeal S f64 powf e f row = .ok v) :
    ∃ w, y.runIdeal S f64 powf e f row = .ok w := by
  have heval := x.eval_intoDatum f64 powf (fun _ => idealBackend S e.toCrispEngine f) row
  unfold runIdeal at hx
  rw [hx] at heval
  obtain ⟨datum, hdatum⟩ := h.exists_eval heval
  rw [y.eval_intoDatum, map_eq_ok_iff] at hdatum
  obtain ⟨w, hw, -⟩ := hdatum
  exact ⟨w, hw⟩

/-- A transform that merges alphas does not return. -/
theorem Merges.run_ne_ok (hpowf : F64.CorrectlyRounded powf) {y : SqlExpr Call Column}
    (h : Merges S f64 powf e f row y) (v : SqlFuzzyregion) :
    y.runIdeal S f64 powf e f row ≠ .ok v := by
  intro hv
  cases h with
  | normalize harg hd hnot =>
    obtain ⟨fr, hfr, hcall⟩ := bind_eq_ok_iff.mp hv
    obtain rfl := Except.ok.inj (harg.symm.trans hfr)
    obtain ⟨d, r, hd', hr, hstores⟩ := fuzzyregionNormalize_eq_ok (mapError_eq_ok_iff.mp hcall)
    obtain rfl := Except.ok.inj (hd.symm.trans hd')
    obtain ⟨r', hr', -, -, hdesc⟩ :=
      normalizeMembership_descending_iff (ε := CallError S) (canonical_of_toDomain hd)
    obtain rfl := Except.ok.inj (hr.symm.trans hr')
    -- the result is stored, so its alphas differ
    exact hnot (hdesc.mp (region_of_stores hstores ▸ descending_region v.stored))
  | power harg hd hnot =>
    obtain ⟨fr, hfr, hcall⟩ := bind_eq_ok_iff.mp hv
    obtain rfl := Except.ok.inj (harg.symm.trans hfr)
    obtain ⟨d, r, hd', hr, hstores⟩ := runSql_power_eq_ok _ (mapError_eq_ok_iff.mp hcall)
    obtain rfl := Except.ok.inj (hd.symm.trans hd')
    obtain ⟨hvalid, himage⟩ := PowerTransform.image_of_run _ hpowf hr
    have hdesc := himage.descending_iff (PowerTransform.inUnit_powerOf _ hvalid)
    exact hnot (hdesc.mp (region_of_stores hstores ▸ descending_region v.stored))

/-- **Every refusal of a statement has a reason in its expression**, on values of the invariants, a
database that does not fail and a correctly rounded `powf`; in particular no call is refused for an
argument that it cannot read. A transform that merges alphas aborts every statement in which it
occurs. -/
theorem refusals_are_licensed (hpowf : F64.CorrectlyRounded powf)
    (hrow : ∀ name, Canonical (e.engine (PostgisError S)) (row name).stored.region)
    (x : SqlExpr Call Column) :
    (∀ stop, x.eval f64 powf (fun _ => idealBackend S e.toCrispEngine f)
        (fun name => intoDatum (row name)) = .error stop → Licensed S f64 powf e f row x stop) ∧
    ∀ y, IsSub y x → Merges S f64 powf e f row y →
      ∀ datum, x.eval f64 powf (fun _ => idealBackend S e.toCrispEngine f)
        (fun name => intoDatum (row name)) ≠ .ok datum := by
  rw [x.eval_intoDatum]
  refine ⟨fun stop h => ?_, fun y hsub hmerges datum h => ?_⟩
  · exact errorsIn_runIdeal hpowf hrow x stop (map_eq_error_iff.mp h)
  · obtain ⟨v, hv, -⟩ := map_eq_ok_iff.mp h
    obtain ⟨w, hw⟩ := hsub.exists_runIdeal hv
    exact hmerges.run_ne_ok hpowf w hw

/-- Three terraces of zone `1`; the alphas of the lower two differ in the last bit. -/
def escarpment : SqlFuzzyregion where
  stored :=
    { version := .v1
      srid := some 1
      levels :=
        [⟨binaryAlpha 0x3FEC000000000000 (by decide), [1, 7], List.cons_ne_nil _ _, by decide⟩,
          ⟨binaryAlpha 0x3FDC000000000002 (by decide), [1, 7, 8], List.cons_ne_nil _ _, by decide⟩,
          ⟨binaryAlpha 0x3FDC000000000001 (by decide), [1, 7, 8, 9], List.cons_ne_nil _ _,
            by decide⟩]
      valid := by decide +kernel }

theorem canonicalize_escarpment :
    canonicalize ⟨escarpment.stored.region.levels⟩ (siteEngine.engine (PostgisError Unit)) =
      .ok escarpment.stored.region := by
  decide +kernel

theorem canonical_escarpment :
    Canonical (siteEngine.engine (PostgisError Unit)) escarpment.stored.region :=
  canonicalize_canonical canonicalize_escarpment

/-- The terraces of a column, with and without their alphas divided by the largest one. -/
def rescaled : SqlExpr ℕ Unit := .setOp 1 .union (.column ()) (.normalize 0 (.column ()))

/-- The quotients of the lower two terraces round to one alpha. -/
theorem refusals_are_licensed_rescaled : ∃ a,
    Licensed Unit bitsText F64.exactPower siteEngine.toRegularizedEngine siteFunctions
      (fun _ => escarpment) rescaled
      (.error (.call (.postgis (.storage (.duplicateAlpha a))))) ∧
    ∀ datum, rescaled.eval bitsText F64.exactPower
      (fun _ => idealBackend Unit siteEngine.toCrispEngine siteFunctions)
      (fun _ => intoDatum escarpment) ≠ .ok datum := by
  have hd : escarpment.toDomain bitsText (siteEngine.engine (PostgisError Unit)) =
      .ok escarpment.stored.region :=
    toDomain_eq_ok_iff.mpr ((decode_eq_canonicalize _ _).trans canonicalize_escarpment)
  have hrun : fuzzyregionNormalize (idealBackend Unit siteEngine.toCrispEngine siteFunctions)
      bitsText escarpment = .error (.error (.postgis (.storage (.duplicateAlpha
        (binaryAlpha 0x3FE0000000000001 (by decide)))))) := by
    decide +kernel
  have heval : rescaled.eval bitsText F64.exactPower
      (fun _ => idealBackend Unit siteEngine.toCrispEngine siteFunctions)
      (fun _ => intoDatum escarpment) = .error (.error (.call (.postgis (.storage (.duplicateAlpha
        (binaryAlpha 0x3FE0000000000001 (by decide))))))) := by
    rw [rescaled.eval_intoDatum, rescaled]
    simp only [run, pure_bind, callNormalize, hrun]
    rfl
  -- the refusal is for no limit of the storage, so no middle separates the quotients
  have hmerges : Merges Unit bitsText F64.exactPower siteEngine.toRegularizedEngine siteFunctions
      (fun _ => escarpment) (.normalize 0 (.column ())) := by
    obtain ⟨error, hlimit | ⟨-, hnot⟩, herror⟩ :=
      errorsIn_normalize (e := siteEngine.toRegularizedEngine) hd _ hrun
    · cases herror
      cases hlimit
    · exact .normalize rfl hd hnot
  obtain ⟨hreasons, haborts⟩ := refusals_are_licensed (e := siteEngine.toRegularizedEngine)
    (f := siteFunctions) F64.correctlyRounded_exactPower (fun _ => canonical_escarpment) rescaled
  exact ⟨_, hreasons _ heval, haborts _ (.right (.refl _)) hmerges⟩

end

end SqlExpr

end FuzzyRegion
