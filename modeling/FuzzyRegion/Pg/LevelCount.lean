import FuzzyRegion.Pg.StatementMeaning

/-!
# The size of results

An expression can only return memberships that its leaves have brought in, and a transform can only
change them one by one. So the levels of a result are never more than the levels of the leaves
together, and without transforms every stored alpha is one of theirs.

## Main definitions

* `SqlFuzzyregion.alphas`, `SqlExpr.leafAlphas`: the alphas of a value, and of the leaves
* `SqlExpr.Plain`: expressions without transforms

## Main results

* `SqlExpr.levels_le_leaves`: a bound on the levels of a result
-/

namespace FuzzyRegion

open Numeric Fallible LevelStack Fuzzyregion SqlFuzzyregion

variable {S Call Column P : Type}

/-! ## Memberships in use -/

/-- A set operation only uses memberships of its operands. -/
theorem SetOp.values_onFuzzySets_subset (op : SetOp) (A B : FuzzySet (Alpha F64) P) :
    (op.onFuzzySets A B).values ⊆ A.values ∪ B.values := by
  cases op with
  | union => exact FuzzySet.values_sup_subset A B
  | intersection => exact FuzzySet.values_inf_subset A B
  | difference =>
    intro a ha
    obtain ⟨l, hl, rfl⟩ := List.mem_map.mp (FuzzySet.values_ofStack_subset _ ha)
    obtain ⟨t, ht, rfl⟩ := List.mem_map.mp hl
    exact (A.finite_union B).mem_toFinset.mp (Finset.mem_toList.mp ht)

theorem FuzzySet.ncard_values_normalized_le (A : FuzzySet (Alpha F64) P) :
    (FuzzySet.normalized A).values.ncard ≤ A.values.ncard := by
  unfold FuzzySet.normalized
  cases FuzzySet.height A with
  | bot => exact le_rfl
  | coe max =>
    show (if max.isOne then A else A.map _).values.ncard ≤ A.values.ncard
    split_ifs
    · exact le_rfl
    · exact A.ncard_values_map_le _

/-- The alphas of the stored levels. -/
def SqlFuzzyregion.alphas (v : SqlFuzzyregion) : List (Alpha F64) :=
  v.stored.levels.map StoredLevel.alpha

section

variable {e : PointSetEngine PostgisGeometry PostgisPoint} {v : SqlFuzzyregion}

theorem values_meaning_subset (e : PointSetEngine PostgisGeometry PostgisPoint)
    (v : SqlFuzzyregion) : (v.meaning e).values ⊆ {a | a ∈ v.alphas} := by
  intro a ha
  have hlabel := FuzzySet.values_ofStack_subset _ ha
  rw [map_fst_stack, StoredFuzzyregion.region, List.map_map] at hlabel
  exact hlabel

/-- The alphas of a value of the invariants are the memberships that occur. -/
theorem mem_alphas_iff (hv : Canonical (e.engine (PostgisError S)) v.stored.region)
    {a : Alpha F64} : a ∈ v.alphas ↔ a ∈ (v.meaning e).values := by
  rw [SqlFuzzyregion.meaning, hv.mem_values_iff, StoredFuzzyregion.region, List.map_map]
  rfl

theorem length_alphas (hv : Canonical (e.engine (PostgisError S)) v.stored.region) :
    v.alphas.length = (v.meaning e).values.ncard := by
  rw [SqlFuzzyregion.meaning, ← hv.length_levels, StoredFuzzyregion.region, List.length_map,
    alphas, List.length_map]

theorem ncard_values_meaning_le (e : PointSetEngine PostgisGeometry PostgisPoint)
    (v : SqlFuzzyregion) : (v.meaning e).values.ncard ≤ v.alphas.length := by
  refine (FuzzySet.ncard_values_le_length _).trans_eq ?_
  rw [RegularizedEngine.stack, StoredFuzzyregion.region, alphas, List.length_map, List.length_map,
    List.length_map]

end

/-! ## Calls -/

section

variable {f64 : F64Text} {powf : F64 → F64 → F64}
  {e : PointSetEngine PostgisGeometry PostgisPoint} {f : PointFunctions}
  {a b fr v : SqlFuzzyregion}

/-- A set operation returns at most the levels of its operands together. -/
theorem length_alphas_of_runSql (op : SetOp)
    (h : op.runSql f64 (e.engine (PostgisError S)) a b = .ok v) :
    v.alphas.length ≤ a.alphas.length + b.alphas.length := by
  rw [length_alphas (e := e) (canonical_of_runSql op h), SqlExpr.meaning_of_runSql op h]
  have hfinite := (a.meaning e).finite_union (b.meaning e)
  calc (op.onFuzzySets (a.meaning e) (b.meaning e)).values.ncard
      ≤ ((a.meaning e).values ∪ (b.meaning e).values).ncard :=
        Set.ncard_le_ncard (op.values_onFuzzySets_subset _ _) hfinite
    _ ≤ (a.meaning e).values.ncard + (b.meaning e).values.ncard := Set.ncard_union_le _ _
    _ ≤ a.alphas.length + b.alphas.length :=
        add_le_add (ncard_values_meaning_le e a) (ncard_values_meaning_le e b)

/-- The alphas that a set operation returns are those of its operands. -/
theorem mem_alphas_of_runSql (op : SetOp)
    (h : op.runSql f64 (e.engine (PostgisError S)) a b = .ok v) {t : Alpha F64}
    (ht : t ∈ v.alphas) : t ∈ a.alphas ∨ t ∈ b.alphas := by
  rw [mem_alphas_iff (e := e) (canonical_of_runSql op h), SqlExpr.meaning_of_runSql op h] at ht
  exact (op.values_onFuzzySets_subset _ _ ht).imp (fun hta => values_meaning_subset e a hta)
    fun htb => values_meaning_subset e b htb

/-- A normalization does not return more levels than its operand has. -/
theorem length_alphas_of_normalize
    (h : fuzzyregionNormalize (idealBackend S e.toCrispEngine f) f64 fr = .ok v) :
    v.alphas.length ≤ fr.alphas.length := by
  rw [length_alphas (e := e) (canonical_of_normalize h), SqlExpr.meaning_of_normalize h]
  exact (FuzzySet.ncard_values_normalized_le _).trans (ncard_values_meaning_le e fr)

/-- A power does not return more levels than its operand has. -/
theorem length_alphas_of_power (t : PowerTransform) {exponent : F64}
    (h : t.runSql (idealBackend S e.toCrispEngine f) f64 powf fr exponent = .ok v) :
    v.alphas.length ≤ fr.alphas.length := by
  rw [length_alphas (e := e) (canonical_of_power t h), SqlExpr.meaning_of_power t h]
  exact (FuzzySet.ncard_values_map_le _ _).trans (ncard_values_meaning_le e fr)

end

/-! ## Expressions -/

namespace SqlExpr

/-- The alphas that the leaves of an expression bring in. -/
def leafAlphas (f64 : F64Text) (row : Column → SqlFuzzyregion) :
    SqlExpr Call Column → List (Alpha F64)
  | column name => (row name).alphas
  | literal _ text =>
    match parseText f64 text with
    | .ok parsed => parsed.alphas
    | .error _ => []
  | fromEwkb _ alphas geoms => (elementLevels alphas geoms).map Level.alpha
  | setOp _ _ left right => left.leafAlphas f64 row ++ right.leafAlphas f64 row
  | normalize _ arg => arg.leafAlphas f64 row
  | power _ _ _ arg => arg.leafAlphas f64 row

/-- An expression without transforms. -/
def Plain : SqlExpr Call Column → Prop
  | column _ | literal _ _ | fromEwkb _ _ _ => True
  | setOp _ _ left right => left.Plain ∧ right.Plain
  | normalize _ _ | power _ _ _ _ => False

section

variable {f64 : F64Text} {powf : F64 → F64 → F64}
  {e : PointSetEngine PostgisGeometry PostgisPoint} {f : PointFunctions}
  {row : Column → SqlFuzzyregion} {v : SqlFuzzyregion}

/-- The number of alphas of a value that the evaluation returns. -/
theorem length_alphas_of_run {x : SqlExpr Call Column}
    (h : x.run f64 powf (fun _ => idealBackend S e.toCrispEngine f) row = .ok v) :
    v.alphas.length ≤ (x.leafAlphas f64 row).length := by
  induction x generalizing v with
  | column name =>
    obtain rfl := pure_eq_ok_iff.mp h
    exact le_rfl
  | literal call text =>
    -- decoding may merge levels of the parsed payload
    have hinput := mapError_eq_ok_iff.mp h
    obtain ⟨parsed, hparsed, hmeaning⟩ := meaning_of_input hinput
    rw [length_alphas (e := e) (canonical_of_input hinput), hmeaning, leafAlphas, hparsed]
    exact ncard_values_meaning_le e parsed
  | fromEwkb call alphas geoms =>
    simp only [run, callFromEwkb, liftStatement, liftCall, mapError_eq_ok_iff] at h
    rw [length_alphas (e := e) (canonical_of_fromEwkb h), SqlFuzzyregion.meaning,
      meaning_of_fromEwkb h, leafAlphas, List.length_map]
    exact (FuzzySet.ncard_values_le_length _).trans_eq (List.length_map _)
  | setOp call op left right ihl ihr =>
    simp only [run, callSetOp, liftStatement, bind_eq_ok_iff, mapError_eq_ok_iff] at h
    obtain ⟨a, ha, b, hb, hrun⟩ := h
    rw [leafAlphas, List.length_append]
    exact (length_alphas_of_runSql op hrun).trans (add_le_add (ihl ha) (ihr hb))
  | normalize call arg ih =>
    simp only [run, callNormalize, liftStatement, bind_eq_ok_iff, mapError_eq_ok_iff] at h
    obtain ⟨fr, hfr, hrun⟩ := h
    exact (length_alphas_of_normalize hrun).trans (ih hfr)
  | power call t exponent arg ih =>
    simp only [run, callPower, liftStatement, bind_eq_ok_iff, mapError_eq_ok_iff] at h
    obtain ⟨fr, hfr, hrun⟩ := h
    exact (length_alphas_of_power t hrun).trans (ih hfr)

/-- Without transforms every alpha of a value that the evaluation returns is one of a leaf. -/
theorem mem_leafAlphas_of_run {x : SqlExpr Call Column} (hx : x.Plain)
    (h : x.run f64 powf (fun _ => idealBackend S e.toCrispEngine f) row = .ok v) {a : Alpha F64}
    (ha : a ∈ v.alphas) : a ∈ x.leafAlphas f64 row := by
  induction x generalizing v with
  | column name =>
    obtain rfl := pure_eq_ok_iff.mp h
    exact ha
  | literal call text =>
    have hinput := mapError_eq_ok_iff.mp h
    obtain ⟨parsed, hparsed, hmeaning⟩ := meaning_of_input hinput
    rw [mem_alphas_iff (e := e) (canonical_of_input hinput), hmeaning] at ha
    rw [leafAlphas, hparsed]
    exact values_meaning_subset e parsed ha
  | fromEwkb call alphas geoms =>
    simp only [run, callFromEwkb, liftStatement, liftCall, mapError_eq_ok_iff] at h
    rw [mem_alphas_iff (e := e) (canonical_of_fromEwkb h), SqlFuzzyregion.meaning,
      meaning_of_fromEwkb h] at ha
    have hlabel := FuzzySet.values_ofStack_subset _ ha
    rwa [map_fst_stack] at hlabel
  | setOp call op left right ihl ihr =>
    simp only [run, callSetOp, liftStatement, bind_eq_ok_iff, mapError_eq_ok_iff] at h
    obtain ⟨b, hb, c, hc, hrun⟩ := h
    rcases mem_alphas_of_runSql op hrun ha with ha | ha
    · exact List.mem_append_left _ (ihl hx.1 hb ha)
    · exact List.mem_append_right _ (ihr hx.2 hc ha)
  | normalize call arg ih => exact hx.elim
  | power call t exponent arg ih => exact hx.elim

end

end SqlExpr

end FuzzyRegion
