import FuzzyRegion.Core.Region
import FuzzyRegion.Data.LevelStack

/-!
# Canonicalization

What each pass of `canonicalize` does when it succeeds, and the canonical form they establish
together. The collapse compares a level with the last retained one, so its result is the greedy
sublist without repeated neighbours. Everything here is about an arbitrary engine, which may fail,
and assumes no geometric law.

## Main definitions

* `Canonical engine v`: the checks of `canonicalize`, as properties of its result

## Main results

* `normalizeLevels_eq_ok_iff`, `checkDuplicateAlphas_eq_ok_iff`, `checkSrids_eq_ok_iff`,
  `checkNesting_eq_ok_iff`: when a pass succeeds
* `collapseLevels_eq_ok`, `collapseLevels_of_isChain`: the collapse
* `canonicalize_eq_ok_iff`: when canonicalization succeeds
* `canonicalize_canonical`: it returns a canonical region
* `canonicalize_of_canonical`: it returns a normalized canonical region unchanged
* `canonicalize_levels_eq_ok_iff`: from the levels alone, it rebuilds a region exactly when the
  region has levels or no SRID
-/

namespace FuzzyRegion

open Fallible

namespace Fuzzyregion

variable {F G P E : Type} [LawfulScalar F] {engine : GeometryEngine G P E}

/-! ## The passes -/

theorem normalizeLevels_eq_ok_iff {raw levels : List (Level F G)} :
    normalizeLevels engine raw = .ok levels ↔
      List.Forall₂ (fun l l' => l'.alpha = l.alpha ∧
        engine.normalizeMultipolygon l.geometry = .ok l'.geometry ∧
        engine.isEmpty l'.geometry = .ok false) raw levels := by
  have hstep : ∀ l l' : Level F G, (do
      let geometry ← (engine.normalizeMultipolygon l.geometry).mapError CoreError.geometry
      if ← (engine.isEmpty geometry).mapError .geometry then
        throw (CoreError.emptyGeometry l.alpha)
      return (⟨l.alpha, geometry⟩ : Level F G)) = .ok l' ↔
      l'.alpha = l.alpha ∧ engine.normalizeMultipolygon l.geometry = .ok l'.geometry ∧
        engine.isEmpty l'.geometry = .ok false := by
    intro l l'
    cases l' with
    | mk alpha geometry =>
      simp only [bind_eq_ok_iff, mapError_eq_ok_iff]
      constructor
      · rintro ⟨g, hg, b, hb, h⟩
        -- the step throws on an empty geometry
        cases b
        · simp only [Bool.false_eq_true, if_false, pure_eq_ok_iff, Level.mk.injEq] at h
          obtain ⟨rfl, rfl⟩ := h
          exact ⟨rfl, hg, hb⟩
        · simp at h
      · rintro ⟨rfl, hg, hb⟩
        exact ⟨geometry, hg, false, hb, by simp⟩
  rw [normalizeLevels, mapM_eq_ok_iff]
  constructor
  · exact List.Forall₂.imp fun l l' => (hstep l l').mp
  · exact List.Forall₂.imp fun l l' => (hstep l l').mpr

/-- Normalization keeps the alphas. -/
theorem map_alpha_of_normalizeLevels {raw levels : List (Level F G)}
    (h : normalizeLevels engine raw = .ok levels) :
    levels.map Level.alpha = raw.map Level.alpha :=
  map_eq_map_of_forall₂ ((normalizeLevels_eq_ok_iff.mp h).flip.imp fun _ _ hl => hl.1)

/-- What holds of the alphas of all pairs of levels holds of them after normalization. -/
theorem pairwise_of_normalizeLevels {raw levels : List (Level F G)} (R : Alpha F → Alpha F → Prop)
    (h : normalizeLevels engine raw = .ok levels)
    (hraw : raw.Pairwise fun higher lower => R higher.alpha lower.alpha) :
    levels.Pairwise fun higher lower => R higher.alpha lower.alpha := by
  rw [← List.pairwise_map (R := R)] at hraw ⊢
  rwa [map_alpha_of_normalizeLevels h]

theorem sortsBefore_iff {left right : Level F G} :
    sortsBefore left right ↔ right.alpha ≤ left.alpha := Alpha.isLE_cmp

theorem sortLevels_perm (levels : List (Level F G)) : (sortLevels levels).Perm levels :=
  List.perm_insertionSort _ _

theorem pairwise_sortLevels (levels : List (Level F G)) :
    (sortLevels levels).Pairwise fun higher lower => lower.alpha ≤ higher.alpha := by
  have htotal : Std.Total (sortsBefore (F := F) (G := G)) :=
    ⟨fun a b => by simpa only [sortsBefore_iff] using le_total b.alpha a.alpha⟩
  have htrans : IsTrans (Level F G) sortsBefore :=
    ⟨fun a b c hab hbc => sortsBefore_iff.mpr
      ((sortsBefore_iff.mp hbc).trans (sortsBefore_iff.mp hab))⟩
  exact (List.pairwise_insertionSort _ levels).imp sortsBefore_iff.mp

theorem sortLevels_eq_self {levels : List (Level F G)}
    (h : levels.Pairwise fun higher lower => lower.alpha < higher.alpha) :
    sortLevels levels = levels :=
  List.Pairwise.insertionSort_eq (h.imp fun hlt => sortsBefore_iff.mpr hlt.le)

theorem checkDuplicateAlphas_eq_ok_iff {levels : List (Level F G)} :
    (checkDuplicateAlphas levels : CoreResult F E Unit) = .ok () ↔
      levels.IsChain fun a b => a.alpha ≠ b.alpha := by
  rw [checkDuplicateAlphas, forM_windows_eq_ok_iff]
  apply List.IsChain.iff
  intro a b
  cases h : a.alpha.eq b.alpha
  · have hne : a.alpha ≠ b.alpha := fun heq => Bool.eq_false_iff.mp h (Alpha.eq_iff.mpr heq)
    simp [hne]
  · simp [Alpha.eq_iff.mp h]

theorem checkSrids_eq_ok_iff {s : Int32} {levels : List (Level F G)} :
    checkSrids engine s levels = .ok () ↔ ∀ l ∈ levels, engine.srid l.geometry = .ok s := by
  rw [checkSrids, forM_eq_ok_iff]
  apply forall₂_congr
  intro l _
  simp only [bind_eq_ok_iff, mapError_eq_ok_iff]
  constructor
  · rintro ⟨s', hs', h⟩
    -- the step throws on another SRID
    by_cases hne : s' = s
    · rwa [hne] at hs'
    · simp [hne] at h
  · intro h
    exact ⟨s, h, by simp⟩

theorem checkNesting_eq_ok_iff {levels : List (Level F G)} :
    checkNesting engine levels = .ok () ↔
      levels.IsChain fun higher lower =>
        engine.contains lower.geometry higher.geometry = .ok true := by
  rw [checkNesting, forM_windows_eq_ok_iff]
  apply List.IsChain.iff
  intro higher lower
  simp only [bind_eq_ok_iff, mapError_eq_ok_iff]
  constructor
  · rintro ⟨b, hb, h⟩
    cases b
    · simp at h
    · exact hb
  · intro h
    exact ⟨true, h, by simp⟩

/-! ## The collapse -/

/-- The engine tells the extents of two levels apart. -/
def Differs (engine : GeometryEngine G P E) (previous level : Level F G) : Prop :=
  engine.topologicallyEquals previous.geometry level.geometry = .ok false

open Classical in
/-- One step of the collapse, after a retained level. -/
theorem collapseStep_eq_ok {acc : List (Level F G)} {previous level : Level F G}
    {r : List (Level F G)} (h : collapseStep engine (acc ++ [previous]) level = .ok r) :
    r = if Differs engine previous level then acc ++ [previous] ++ [level]
      else acc ++ [previous] := by
  simp only [collapseStep, List.getLast?_concat, bind_eq_ok_iff, mapError_eq_ok_iff,
    pure_eq_ok_iff] at h
  obtain ⟨drop, hdrop, rfl⟩ := h
  cases drop <;> simp [Differs, hdrop]

open Classical in
theorem foldlM_collapseStep_eq_ok {levels acc : List (Level F G)} {previous : Level F G}
    {r : List (Level F G)}
    (h : levels.foldlM (collapseStep engine) (acc ++ [previous]) = .ok r) :
    r = acc ++ levels.destutter' (Differs engine) previous := by
  -- induction on the unread levels, with the last retained level split off
  induction levels generalizing acc previous with
  | nil => simpa [pure, Except.pure, eq_comm] using h
  | cons level levels ih =>
    rw [List.foldlM_cons, bind_eq_ok_iff] at h
    obtain ⟨acc', hstep, hrest⟩ := h
    rw [collapseStep_eq_ok hstep] at hrest
    rw [List.destutter'_cons]
    split_ifs at hrest ⊢ with hd
    -- the level is retained and takes the place of `previous`, or it is dropped
    · rw [ih hrest, List.append_assoc, List.singleton_append]
    · exact ih hrest

open Classical in
/-- The collapse keeps the first level of every run of equal extents. -/
theorem collapseLevels_eq_ok {levels collapsed : List (Level F G)}
    (h : collapseLevels engine levels = .ok collapsed) :
    collapsed = levels.destutter (Differs engine) := by
  cases levels with
  | nil => simpa [collapseLevels, pure, Except.pure, eq_comm] using h
  | cons level levels =>
    have hfirst : collapseStep engine [] level = .ok ([] ++ [level]) := rfl
    rw [collapseLevels, List.foldlM_cons, hfirst, ok_bind] at h
    exact foldlM_collapseStep_eq_ok h

theorem foldlM_collapseStep_of_isChain {levels acc : List (Level F G)} {previous : Level F G}
    (h : (previous :: levels).IsChain (Differs engine)) :
    levels.foldlM (collapseStep engine) (acc ++ [previous]) =
      .ok (acc ++ previous :: levels) := by
  induction levels generalizing acc previous with
  | nil => rfl
  | cons level levels ih =>
    obtain ⟨hd, hrest⟩ := List.isChain_cons_cons.mp h
    have hstep : collapseStep engine (acc ++ [previous]) level =
        .ok (acc ++ [previous] ++ [level]) := by
      simp only [collapseStep, List.getLast?_concat]
      rw [show engine.topologicallyEquals previous.geometry level.geometry = .ok false from hd]
      rfl
    rw [List.foldlM_cons, hstep, ok_bind, ih hrest]
    simp

/-- The collapse changes nothing when no two neighbours have the same extent. -/
theorem collapseLevels_of_isChain {levels : List (Level F G)}
    (h : levels.IsChain (Differs engine)) : collapseLevels engine levels = .ok levels := by
  cases levels with
  | nil => rfl
  | cons level levels =>
    have hfirst : collapseStep engine [] level = .ok ([] ++ [level]) := rfl
    rw [collapseLevels, List.foldlM_cons, hfirst, ok_bind, foldlM_collapseStep_of_isChain h,
      List.nil_append]

/-! ## The canonical form -/

/-- The canonical form: descending alphas, normalized non-empty geometries with the SRID of the
region, and neighbours that are nested and of different extent. -/
structure Canonical (engine : GeometryEngine G P E) (v : Fuzzyregion F G) : Prop where
  descending : v.levels.Pairwise fun higher lower => lower.alpha < higher.alpha
  normalized : ∀ l ∈ v.levels, ∃ g, engine.normalizeMultipolygon g = .ok l.geometry
  nonEmpty : ∀ l ∈ v.levels, engine.isEmpty l.geometry = .ok false
  sameSrid : ∀ l ∈ v.levels, ∃ s, v.srid = some s ∧ engine.srid l.geometry = .ok s
  nested : v.levels.IsChain fun higher lower =>
    engine.contains lower.geometry higher.geometry = .ok true
  distinct : v.levels.IsChain (Differs engine)

theorem canonical_empty (engine : GeometryEngine G P E) (srid : Option Int32) :
    Canonical engine (empty srid : Fuzzyregion F G) where
  descending := List.Pairwise.nil
  normalized := by simp [empty]
  nonEmpty := by simp [empty]
  sameSrid := by simp [empty]
  nested := .nil
  distinct := .nil

/-- A canonical region with levels has their SRID. -/
theorem Canonical.srid_ne_none {v : Fuzzyregion F G} (h : Canonical engine v)
    (hne : v.levels ≠ []) : v.srid ≠ none := by
  obtain ⟨l, hl⟩ := List.exists_mem_of_ne_nil v.levels hne
  obtain ⟨s, hs, -⟩ := h.sameSrid l hl
  exact Option.ne_none_iff_exists'.mpr ⟨s, hs⟩

/-- When canonicalization succeeds: without levels with the empty region, and otherwise when every
pass does. -/
theorem canonicalize_eq_ok_iff {unchecked : UncheckedFuzzyregion F G} {v : Fuzzyregion F G} :
    canonicalize unchecked engine = .ok v ↔
      ∃ levels, normalizeLevels engine unchecked.levels = .ok levels ∧
        ((sortLevels levels = [] ∧ v = empty none) ∨
          ∃ first rest s collapsed, sortLevels levels = first :: rest ∧
            (checkDuplicateAlphas (first :: rest) : CoreResult F E Unit) = .ok () ∧
            engine.srid first.geometry = .ok s ∧ checkSrids engine s rest = .ok () ∧
            collapseLevels engine (first :: rest) = .ok collapsed ∧
            checkNesting engine collapsed = .ok () ∧ v = ⟨some s, collapsed⟩) := by
  rw [canonicalize, bind_eq_ok_iff]
  refine exists_congr fun levels => and_congr_right fun _ => ?_
  cases hsort : sortLevels levels with
  | nil =>
    simp only [pure_eq_ok_iff, true_and, reduceCtorEq, false_and, exists_false, or_false]
    exact eq_comm
  | cons first rest =>
    simp only [bind_eq_ok_iff, mapError_eq_ok_iff, pure_eq_ok_iff, reduceCtorEq, false_and,
      false_or]
    constructor
    · rintro ⟨⟨⟩, hdup, s, hs, ⟨⟩, hsrid, collapsed, hcollapse, ⟨⟩, hnest, rfl⟩
      exact ⟨first, rest, s, collapsed, rfl, hdup, hs, hsrid, hcollapse, hnest, rfl⟩
    · rintro ⟨first', rest', s, collapsed, heq, hdup, hs, hsrid, hcollapse, hnest, rfl⟩
      obtain ⟨rfl, rfl⟩ := List.cons.inj heq
      exact ⟨(), hdup, s, hs, (), hsrid, collapsed, hcollapse, (), hnest, rfl⟩

/-- Canonicalization returns a canonical region. -/
theorem canonicalize_canonical {unchecked : UncheckedFuzzyregion F G} {v : Fuzzyregion F G}
    (h : canonicalize unchecked engine = .ok v) : Canonical engine v := by
  classical
  obtain ⟨levels, hnorm, ⟨-, rfl⟩ | ⟨first, rest, s, collapsed, hsort, hdup, hs, hsrid, hcollapse,
    hnest, rfl⟩⟩ := canonicalize_eq_ok_iff.mp h
  · exact canonical_empty engine none
  · have hlevel : ∀ l ∈ levels, (∃ g, engine.normalizeMultipolygon g = .ok l.geometry) ∧
        engine.isEmpty l.geometry = .ok false := by
      intro l hl
      obtain ⟨g, -, -, hg, he⟩ := exists_of_forall₂ (normalizeLevels_eq_ok_iff.mp hnorm) hl
      exact ⟨⟨_, hg⟩, he⟩
    have hperm := hsort ▸ sortLevels_perm levels
    have hsorted := hsort ▸ pairwise_sortLevels levels
    -- what holds of all sorted levels, or of sorted pairs, holds of the retained ones
    have hcol := collapseLevels_eq_ok hcollapse
    have hsub : collapsed.Sublist (first :: rest) := hcol ▸ List.destutter_sublist _ _
    have hchain : collapsed.IsChain (Differs engine) := by
      rw [hcol]
      exact List.isChain_destutter _ _
    have hmem : ∀ l ∈ collapsed, l ∈ levels := fun l hl => hperm.subset (hsub.subset hl)
    have hall : ∀ l ∈ first :: rest, engine.srid l.geometry = .ok s :=
      List.forall_mem_cons.mpr ⟨hs, checkSrids_eq_ok_iff.mp hsrid⟩
    exact {
      descending := (LevelStack.pairwise_lt_of_isChain_ne hsorted
        (checkDuplicateAlphas_eq_ok_iff.mp hdup)).sublist hsub
      normalized := fun l hl => (hlevel l (hmem l hl)).1
      nonEmpty := fun l hl => (hlevel l (hmem l hl)).2
      sameSrid := fun l hl => ⟨s, rfl, hall l (hsub.subset hl)⟩
      nested := checkNesting_eq_ok_iff.mp hnest
      distinct := hchain }

open Classical in
/-- A region without levels leaves canonicalization without an SRID. -/
theorem srid_of_canonicalize_nil {unchecked : UncheckedFuzzyregion F G} {v : Fuzzyregion F G}
    (h : canonicalize unchecked engine = .ok v) (hnil : v.levels = []) : v.srid = none := by
  obtain ⟨levels, -, ⟨-, rfl⟩ | ⟨first, rest, s, collapsed, -, -, -, -, hcollapse, -, rfl⟩⟩ :=
    canonicalize_eq_ok_iff.mp h
  · rfl
  · -- the collapse keeps the first level
    rw [collapseLevels_eq_ok hcollapse] at hnil
    exact absurd ((List.destutter_eq_nil _).mp hnil) (List.cons_ne_nil first rest)

/-- Canonicalization returns a canonical region unchanged when its geometries are fixed points of
normalization. -/
theorem canonicalize_of_canonical {v : Fuzzyregion F G} (hv : Canonical engine v)
    (hfix : ∀ l ∈ v.levels, engine.normalizeMultipolygon l.geometry = .ok l.geometry)
    (hne : v.levels ≠ []) : canonicalize ⟨v.levels⟩ engine = .ok v := by
  have hnorm : normalizeLevels engine v.levels = .ok v.levels := by
    rw [normalizeLevels_eq_ok_iff, List.forall₂_same]
    exact fun l hl => ⟨rfl, hfix l hl, hv.nonEmpty l hl⟩
  rw [canonicalize, hnorm, ok_bind, sortLevels_eq_self hv.descending]
  obtain ⟨srid, levels⟩ := v
  cases levels with
  | nil => exact absurd rfl hne
  | cons first rest =>
    obtain ⟨s, rfl, hs⟩ := hv.sameSrid first List.mem_cons_self
    -- every pass accepts, and none changes the list
    have hdup : (checkDuplicateAlphas (first :: rest) : CoreResult F E Unit) = .ok () :=
      checkDuplicateAlphas_eq_ok_iff.mpr (hv.descending.isChain.imp fun _ _ h => h.ne')
    have hsrid : checkSrids engine s rest = .ok () := by
      apply checkSrids_eq_ok_iff.mpr
      intro l hl
      obtain ⟨s', hs', hl'⟩ := hv.sameSrid l (List.mem_cons_of_mem first hl)
      rwa [Option.some.inj hs']
    simp only [hdup, hs, hsrid, mapError_ok, ok_bind, collapseLevels_of_isChain hv.distinct,
      checkNesting_eq_ok_iff.mpr hv.nested]
    rfl

/-- The levels of a canonical region rebuild it, except that a region without levels loses its
SRID. -/
theorem canonicalize_levels_eq_ok_iff {v : Fuzzyregion F G} (hv : Canonical engine v)
    (hfix : ∀ l ∈ v.levels, engine.normalizeMultipolygon l.geometry = .ok l.geometry) :
    canonicalize ⟨v.levels⟩ engine = .ok v ↔ v.levels ≠ [] ∨ v.srid = none := by
  by_cases hne : v.levels = []
  · obtain ⟨srid, levels⟩ := v
    obtain rfl : levels = [] := hne
    -- the empty list of levels has no geometry to take an SRID from
    have hempty : canonicalize ⟨[]⟩ engine = .ok (empty none : Fuzzyregion F G) := rfl
    rw [hempty, Except.ok.injEq, empty, mk.injEq]
    simp only [and_true, ne_eq, not_true_eq_false, false_or]
    exact eq_comm
  · exact iff_of_true (canonicalize_of_canonical hv hfix hne) (Or.inl hne)

end Fuzzyregion

end FuzzyRegion
