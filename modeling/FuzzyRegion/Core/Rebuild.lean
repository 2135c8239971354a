import FuzzyRegion.Core.Passes

/-!
# Rebuilding a region from its cuts

Every set operation computes one geometry for each alpha of the common domain and rebuilds a region
from them. On a regularized engine the rebuild succeeds for any family of geometries that shrinks
with growing alpha, and the cuts of the result are those of the normalized family at the alphas of
the domain. The three set operations are instances.

## Main definitions

* `CutFamily`: a family of geometries that shrinks with growing alpha
* `keptLevel`: the level that one alpha contributes

## Main results

* `canonicalize_engine_eq_ok`: when canonicalization succeeds on an engine that never errors
* `canonicalize_of_isStack`: a level list that presents a stack is accepted, and keeps its grades
* `setOperation_of_family`: a shrinking family of geometries is rebuilt
-/

namespace FuzzyRegion

open Fallible LevelStack

variable {F G P E : Type} [LawfulScalar F]

/-- A family of geometries with one SRID, one for each alpha, that shrinks with growing alpha. -/
structure CutFamily (F : Type) [LawfulScalar F] (e : RegularizedEngine G P)
    (srid : Option Int32) where
  cut : Alpha F → Option G
  srid_eq : ∀ {t g}, cut t = some g → srid = some (e.srid g)
  shrinks : ∀ {t t'}, t ≤ t' → e.covered (cut t') ⊆ e.covered (cut t)

namespace Fuzzyregion

/-! ## Canonicalization on an engine that never errors -/

section

variable {c : CrispEngine G P}

open Classical in
/-- Canonicalization succeeds on levels that are non-empty after normalization, of one SRID, of
different alphas, and nested once repeated extents are dropped. -/
theorem canonicalize_engine_eq_ok {raw : List (Level F G)} {s : Int32} (hne : raw ≠ [])
    (hlive : ∀ l ∈ raw, c.isEmpty (c.normalizeMultipolygon l.geometry) = false)
    (hsrid : ∀ l ∈ raw, c.srid (c.normalizeMultipolygon l.geometry) = s)
    (hdesc : (sortLevels (raw.map c.normalizeLevel)).Pairwise
      fun higher lower => lower.alpha < higher.alpha)
    (hnest : ((sortLevels (raw.map c.normalizeLevel)).destutter (Differs (c.engine E))).IsChain
      fun higher lower => c.contains lower.geometry higher.geometry = true) :
    canonicalize ⟨raw⟩ (c.engine E) =
      .ok ⟨some s, (sortLevels (raw.map c.normalizeLevel)).destutter (Differs (c.engine E))⟩ := by
  have hnorm : normalizeLevels (c.engine E) raw = .ok (raw.map c.normalizeLevel) := by
    rw [normalizeLevels_eq_ok_iff, List.forall₂_map_right_iff, List.forall₂_same]
    exact fun l hl => ⟨rfl, rfl, congrArg Except.ok (hlive l hl)⟩
  have hall : ∀ l ∈ sortLevels (raw.map c.normalizeLevel), c.srid l.geometry = s := by
    intro l hl
    obtain ⟨m, hm, rfl⟩ := List.mem_map.mp ((sortLevels_perm _).subset hl)
    exact hsrid m hm
  rw [canonicalize, hnorm, ok_bind]
  cases hsort : sortLevels (raw.map c.normalizeLevel) with
  | nil =>
    -- sorting loses no level
    have hlen := (sortLevels_perm (raw.map c.normalizeLevel)).length_eq
    rw [hsort, List.length_map] at hlen
    exact absurd (List.eq_nil_of_length_eq_zero hlen.symm) hne
  | cons first rest =>
    rw [hsort] at hdesc hnest hall
    obtain ⟨hfirst, hrest⟩ := List.forall_mem_cons.mp hall
    have hdup : (checkDuplicateAlphas (first :: rest) : CoreResult F E Unit) = .ok () :=
      checkDuplicateAlphas_eq_ok_iff.mpr (hdesc.isChain.imp fun _ _ h => h.ne')
    have hsrids : checkSrids (c.engine E) s rest = .ok () :=
      checkSrids_eq_ok_iff.mpr fun l hl => congrArg Except.ok (hrest l hl)
    have hnested : checkNesting (c.engine E)
        ((first :: rest).destutter (Differs (c.engine E))) = .ok () :=
      checkNesting_eq_ok_iff.mpr (hnest.imp fun _ _ h => congrArg Except.ok h)
    simp only [hdup, CrispEngine.engine_srid, hfirst, hsrids, mapError_ok, ok_bind,
      collapseLevels_engine, hnested]
    rfl

end

/-! ## Level lists that present a stack -/

variable {e : RegularizedEngine G P}

theorem stack_map_normalizeLevel (raw : List (Level F G)) :
    e.stack (raw.map e.normalizeLevel) =
      raw.map fun l => (l.alpha, e.points (e.normalizeMultipolygon l.geometry)) := by
  rw [RegularizedEngine.stack, List.map_map]
  rfl

open Classical in
/-- On one SRID the collapse drops exactly the repeated point sets. -/
theorem stack_destutter {levels : List (Level F G)} {s : Int32}
    (hsrid : ∀ l ∈ levels, e.srid l.geometry = s) :
    e.stack (levels.destutter (Differs (e.engine E))) =
      (e.stack levels).destutter fun a b => a.2 ≠ b.2 :=
  List.map_destutter fun a ha b hb => differs_iff ((hsrid a ha).trans (hsrid b hb).symm)

open Classical in
/-- A level list whose normalized levels present a stack of one SRID is accepted, and the result
has the grades of the stack. -/
theorem canonicalize_of_isStack {raw : List (Level F G)} {s : Int32} (hne : raw ≠ [])
    (hstack : IsStack (e.stack (raw.map e.normalizeLevel)))
    (hlive : ∀ l ∈ raw, (e.points (e.normalizeMultipolygon l.geometry)).Nonempty)
    (hsrid : ∀ l ∈ raw, e.srid l.geometry = s) :
    ∃ r, canonicalize ⟨raw⟩ (e.engine E) = .ok r ∧ r.srid = some s ∧
      ∀ p, grade (e.stack r.levels) p = grade (e.stack (raw.map e.normalizeLevel)) p := by
  have hnormSrid : ∀ l ∈ raw.map e.normalizeLevel, e.srid l.geometry = s := by
    intro l hl
    obtain ⟨m, hm, rfl⟩ := List.mem_map.mp hl
    exact (e.srid_normalize m.geometry).trans (hsrid m hm)
  have hpair := List.pairwise_map.mp hstack
  -- a stack is sorted already, and a sublist of it is nested
  have hsort : sortLevels (raw.map e.normalizeLevel) = raw.map e.normalizeLevel :=
    sortLevels_eq_self (hpair.imp And.left)
  have hsub := List.destutter_sublist (Differs (e.engine E)) (raw.map e.normalizeLevel)
  have hnest : ((raw.map e.normalizeLevel).destutter (Differs (e.engine E))).IsChain
      fun higher lower => e.contains lower.geometry higher.geometry = true := by
    refine List.IsChain.imp_of_mem_imp ?_ (hpair.sublist hsub).isChain
    intro higher lower hh hl hle
    have heq := (hnormSrid lower (hsub.subset hl)).trans (hnormSrid higher (hsub.subset hh)).symm
    exact (e.contains_iff heq).mpr hle.2
  refine ⟨⟨some s, (raw.map e.normalizeLevel).destutter (Differs (e.engine E))⟩, ?_, rfl,
    fun p => ?_⟩
  · have hempty : ∀ l ∈ raw, e.isEmpty (e.normalizeMultipolygon l.geometry) = false :=
      fun l hl => e.isEmpty_eq_false_iff.mpr (hlive l hl)
    have hok := canonicalize_engine_eq_ok (E := E) hne hempty
      (fun l hl => (e.srid_normalize l.geometry).trans (hsrid l hl))
    rw [hsort] at hok
    exact hok (hpair.imp And.left) hnest
  · rw [stack_destutter hnormSrid, grade_destutter hstack.descending]

/-! ## The domain of a set operation -/

theorem pairwise_alphaDomain (a b : Fuzzyregion F G) :
    (a.alphaDomain b).Pairwise fun t t' => t' < t := by
  have htotal : Std.Total fun left right : Alpha F => (right.cmp left).isLE = true :=
    ⟨fun a b => by simpa only [Alpha.isLE_cmp] using le_total b a⟩
  have htrans : IsTrans (Alpha F) fun left right => (right.cmp left).isLE = true :=
    ⟨fun a b c hab hbc => by
      simp only [Alpha.isLE_cmp] at hab hbc ⊢
      exact hbc.trans hab⟩
  have hsorted := List.pairwise_insertionSort (fun left right : Alpha F => (right.cmp left).isLE)
    (a.levels.map Level.alpha ++ b.levels.map Level.alpha)
  have hle : (a.alphaDomain b).Pairwise fun t t' => id t' ≤ id t :=
    (hsorted.sublist (List.destutter_sublist _ _)).imp fun h => Alpha.isLE_cmp.mp h
  have hne : (a.alphaDomain b).IsChain fun t t' => id t ≠ id t' :=
    (List.isChain_destutter _ _).imp fun t t' hne heq => hne (Alpha.eq_iff.mpr heq)
  exact pairwise_lt_of_isChain_ne hle hne

theorem mem_alphaDomain_iff {a b : Fuzzyregion F G} {t : Alpha F} :
    t ∈ a.alphaDomain b ↔ (∃ l ∈ a.levels, l.alpha = t) ∨ ∃ l ∈ b.levels, l.alpha = t := by
  rw [alphaDomain, dedup, mem_destutter_iff fun h => Alpha.eq_iff.mp (not_not.mp h),
    (List.perm_insertionSort _ _).mem_iff, List.mem_append, List.mem_map, List.mem_map]

theorem mem_alphaDomain_iff_exists_level {a b : Fuzzyregion F G} {t : Alpha F} :
    t ∈ a.alphaDomain b ↔ ∃ l ∈ a.levels ++ b.levels, l.alpha = t := by
  rw [mem_alphaDomain_iff]
  simp only [List.mem_append, or_and_right, exists_or]

/-! ## The levels of a set operation -/

/-- The level that one alpha of the domain contributes, if any. -/
def keptLevel (c : CrispEngine G P) (cut : Alpha F → Option G) (t : Alpha F) :
    Option (Level F G) :=
  (cut t).bind fun g =>
    if c.isEmpty (c.normalizeMultipolygon g) then none else some ⟨t, c.normalizeMultipolygon g⟩

theorem pushNonEmptyLevel_engine (c : CrispEngine G P) (cut : Alpha F → Option G) (t : Alpha F)
    (acc : List (Level F G)) :
    pushNonEmptyLevel t (cut t) (c.engine E) acc = .ok (acc ++ (keptLevel c cut t).toList) := by
  rw [keptLevel]
  cases cut t with
  | none => exact congrArg Except.ok (List.append_nil acc).symm
  | some g =>
    simp only [pushNonEmptyLevel, CrispEngine.engine_normalizeMultipolygon,
      CrispEngine.engine_isEmpty, mapError_ok, ok_bind, Option.bind_some]
    cases c.isEmpty (c.normalizeMultipolygon g)
    · rfl
    · exact congrArg Except.ok (List.append_nil acc).symm

theorem keptLevel_eq_some_iff {cut : Alpha F → Option G} {t : Alpha F} {l : Level F G} :
    keptLevel e.toCrispEngine cut t = some l ↔ ∃ g, cut t = some g ∧
      (e.points (e.normalizeMultipolygon g)).Nonempty ∧ ⟨t, e.normalizeMultipolygon g⟩ = l := by
  simp only [keptLevel, Option.bind_eq_some_iff, Option.ite_none_left_eq_some, e.isEmpty_iff,
    Set.nonempty_iff_ne_empty, ne_eq, Option.some.injEq]

/-- A set operation calls `combine` only on the alphas of its operands. -/
theorem setOperation_congr {engine : GeometryEngine G P E} {a b : Fuzzyregion F G}
    {combine combine' : Alpha F → Outcome (CoreError F E) (Option G)}
    (h : ∀ t ∈ a.alphaDomain b, combine t = combine' t) :
    a.setOperation b engine combine = a.setOperation b engine combine' := by
  unfold setOperation
  refine bind_congr fun _ => ?_
  rw [foldlM_congr fun t ht levels => by rw [h t ht]]

/-- A set operation with a given cut at each alpha rebuilds the levels of these cuts. -/
theorem setOperation_engine {c : CrispEngine G P} {a b : Fuzzyregion F G}
    {cut : Alpha F → Option G} {combine : Alpha F → Outcome (CoreError F E) (Option G)}
    (hcombine : ∀ t, combine t = .ok (cut t)) (hcompat : (a.ensureCompatibleSrid b :
      CoreResult F E Unit) = .ok ()) :
    a.setOperation b (c.engine E) combine = liftCore
      (a.finishSetOperation ((a.alphaDomain b).filterMap (keptLevel c cut)) b.srid
        (c.engine E)) := by
  rw [setOperation, hcompat, liftCore_ok, ok_bind, foldlM_push, ok_bind, List.nil_append]
  intro t _ acc
  rw [hcombine, ok_bind, pushNonEmptyLevel_engine, liftCore_ok]

/-! ## Families of cuts -/

section Family

variable {srid : Option Int32} (family : CutFamily F e srid) (domain : List (Alpha F))

/-- The kept levels of a shrinking family present a stack. -/
theorem isStack_keptLevels (hdomain : domain.Pairwise fun t t' => t' < t) :
    IsStack (e.stack
      ((domain.filterMap (keptLevel e.toCrispEngine family.cut)).map e.normalizeLevel)) := by
  rw [IsStack, stack_map_normalizeLevel, List.pairwise_map]
  refine List.Pairwise.filterMap _ ?_ hdomain
  intro t t' hlt l hl l' hl'
  obtain ⟨g, hg, -, rfl⟩ := keptLevel_eq_some_iff.mp hl
  obtain ⟨g', hg', -, rfl⟩ := keptLevel_eq_some_iff.mp hl'
  refine ⟨hlt, ?_⟩
  -- the second normalization changes no points, and the first one is monotone
  have hsub : e.points g ⊆ e.points g' := by
    have hcovered := family.shrinks hlt.le
    rwa [hg, hg', e.covered_some, e.covered_some] at hcovered
  have hsrid : e.srid g = e.srid g' :=
    Option.some.inj ((family.srid_eq hg).symm.trans (family.srid_eq hg'))
  change e.points (e.normalizeMultipolygon (e.normalizeMultipolygon g)) ⊆
    e.points (e.normalizeMultipolygon (e.normalizeMultipolygon g'))
  rw [e.normalize_idem, e.normalize_idem]
  exact e.normalize_mono hsrid hsub

/-- The kept levels have the cuts of the normalized family at the alphas of the domain. -/
theorem exists_keptLevel_iff {x : Alpha F} {p : P} :
    (∃ l ∈ e.stack
        ((domain.filterMap (keptLevel e.toCrispEngine family.cut)).map e.normalizeLevel),
        x ≤ l.1 ∧ p ∈ l.2) ↔
      ∃ t ∈ domain, x ≤ t ∧ p ∈ e.covered ((family.cut t).map e.normalizeMultipolygon) := by
  rw [stack_map_normalizeLevel]
  constructor
  · rintro ⟨l, hl, hx, hp⟩
    obtain ⟨k, hk, rfl⟩ := List.mem_map.mp hl
    obtain ⟨t, ht, hkept⟩ := List.mem_filterMap.mp hk
    obtain ⟨g, hg, -, rfl⟩ := keptLevel_eq_some_iff.mp hkept
    refine ⟨t, ht, hx, ?_⟩
    rw [hg, Option.map_some, e.covered_some]
    rwa [e.normalize_idem] at hp
  · rintro ⟨t, ht, hx, hp⟩
    cases hg : family.cut t with
    | none => simp [hg] at hp
    | some g =>
      rw [hg, Option.map_some, e.covered_some] at hp
      have hkept := keptLevel_eq_some_iff.mpr ⟨g, hg, ⟨p, hp⟩, rfl⟩
      refine ⟨_, List.mem_map_of_mem (List.mem_filterMap.mpr ⟨t, ht, hkept⟩), hx, ?_⟩
      rwa [e.normalize_idem]

theorem srid_of_mem_keptLevels {l : Level F G}
    (hl : l ∈ domain.filterMap (keptLevel e.toCrispEngine family.cut)) :
    srid = some (e.srid l.geometry) ∧
      (e.points (e.normalizeMultipolygon l.geometry)).Nonempty := by
  obtain ⟨t, -, hkept⟩ := List.mem_filterMap.mp hl
  obtain ⟨g, hg, hlive, rfl⟩ := keptLevel_eq_some_iff.mp hkept
  refine ⟨?_, ?_⟩
  · rw [e.srid_normalize]
    exact family.srid_eq hg
  · rwa [e.normalize_idem]

end Family

/-- **A shrinking family of geometries is rebuilt**: the set operation succeeds with the first
SRID of the operands, and its cuts are those of the normalized family on the common domain. -/
theorem setOperation_of_family {a b : Fuzzyregion F G}
    (family : CutFamily F e (a.srid.or b.srid))
    {combine : Alpha F → Outcome (CoreError F E) (Option G)}
    (hcombine : ∀ t, combine t = .ok (family.cut t))
    (hcompat : (a.ensureCompatibleSrid b : CoreResult F E Unit) = .ok ()) :
    ∃ r, a.setOperation b (e.engine E) combine = .ok r ∧ r.srid = a.srid.or b.srid ∧
      ∀ (p : P) (x : Alpha F), (x : WithBot (Alpha F)) ≤ grade (e.stack r.levels) p ↔
        ∃ t ∈ a.alphaDomain b, x ≤ t ∧
          p ∈ e.covered ((family.cut t).map e.normalizeMultipolygon) := by
  rw [setOperation_engine hcombine hcompat]
  have hiff := fun (x : Alpha F) (p : P) =>
    exists_keptLevel_iff family (a.alphaDomain b) (x := x) (p := p)
  have hstack := isStack_keptLevels family (a.alphaDomain b) (pairwise_alphaDomain a b)
  have hmem := fun l => srid_of_mem_keptLevels family (a.alphaDomain b) (l := l)
  generalize (a.alphaDomain b).filterMap (keptLevel e.toCrispEngine family.cut) = levels at *
  cases levels with
  | nil =>
    -- no alpha contributes a level: the empty value with the SRID of the operands
    refine ⟨empty (a.srid.or b.srid), rfl, rfl, fun p x => ?_⟩
    rw [← hiff, coe_le_grade_iff]
    rfl
  | cons first rest =>
    -- the SRID of the result is that of its first level, which is the one of the operands
    obtain ⟨hsrid, -⟩ := hmem first List.mem_cons_self
    have hsame : ∀ l ∈ first :: rest, e.srid l.geometry = e.srid first.geometry := fun l hl =>
      Option.some.inj ((hmem l hl).1.symm.trans hsrid)
    obtain ⟨r, hr, hrsrid, hgrade⟩ := canonicalize_of_isStack (E := E)
      (List.cons_ne_nil first rest) hstack (fun l hl => (hmem l hl).2) hsame
    refine ⟨r, congrArg liftCore hr, hrsrid.trans hsrid.symm, fun p x => ?_⟩
    rw [hgrade, coe_le_grade_iff, hiff]

end Fuzzyregion

end FuzzyRegion
