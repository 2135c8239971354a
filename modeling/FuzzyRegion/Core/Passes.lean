import FuzzyRegion.Core.Reachable

/-!
# Canonicalization on an engine that never errors

Every pass scans a list for the first thing it refuses, so on an engine that never errors the
result of `canonicalize` is told by four searches: for an empty geometry in input order, and then,
among the sorted levels, for equal neighbouring alphas, for another SRID than that of the top
level, and for neighbours of the collapsed list that are not nested.

## Main definitions

* `CrispEngine.normalizeLevel`: a level with its normalized geometry
* `Fuzzyregion.sortedLevels`, `Fuzzyregion.collapsedLevels`: the lists the passes work on
* `Verdict`: the result of `canonicalize`, with what the searches found

## Main results

* `verdict`: canonicalization ends with one of the verdicts
-/

namespace FuzzyRegion

open Fallible LevelStack

variable {F G P E : Type} [LawfulScalar F]

/-- A level with its normalized geometry. -/
def CrispEngine.normalizeLevel (c : CrispEngine G P) (l : Level F G) : Level F G :=
  ⟨l.alpha, c.normalizeMultipolygon l.geometry⟩

namespace Fuzzyregion

variable {c : CrispEngine G P}

/-! ## The passes -/

/-- The normalized geometry of a level is empty. -/
def isVoid (c : CrispEngine G P) (l : Level F G) : Bool :=
  c.isEmpty (c.normalizeMultipolygon l.geometry)

theorem normalizeLevels_engine (raw : List (Level F G)) :
    normalizeLevels (c.engine E) raw = (raw.find? (isVoid c)).elim
      (.ok (raw.map c.normalizeLevel)) fun l => .error (.emptyGeometry l.alpha) := by
  apply mapM_eq_find?
  intro l
  unfold isVoid
  simp only [CrispEngine.engine_normalizeMultipolygon, CrispEngine.engine_isEmpty, mapError_ok,
    ok_bind]
  cases c.isEmpty (c.normalizeMultipolygon l.geometry) <;> rfl

theorem checkDuplicateAlphas_eq (levels : List (Level F G)) :
    (checkDuplicateAlphas levels : CoreResult F E Unit) =
      ((windows levels).find? fun pair => pair.1.alpha.eq pair.2.alpha).elim (.ok ())
        fun pair => .error (.duplicateAlpha pair.1.alpha) := by
  apply forM_eq_find?
  intro pair
  cases pair.1.alpha.eq pair.2.alpha <;> rfl

theorem checkSrids_engine (s : Int32) (levels : List (Level F G)) :
    checkSrids (c.engine E) s levels =
      (levels.find? fun l => c.srid l.geometry != s).elim (.ok ())
        fun l => .error (.mixedSrid s (c.srid l.geometry) l.alpha) := by
  apply forM_eq_find?
  intro l
  simp only [CrispEngine.engine_srid, mapError_ok, ok_bind]
  cases c.srid l.geometry != s <;> rfl

theorem checkNesting_engine (levels : List (Level F G)) :
    checkNesting (c.engine E) levels =
      ((windows levels).find? fun pair => !c.contains pair.2.geometry pair.1.geometry).elim (.ok ())
        fun pair => .error (.nonNestedLevels pair.1.alpha pair.2.alpha) := by
  apply forM_eq_find?
  intro pair
  simp only [CrispEngine.engine_contains, mapError_ok, ok_bind]
  cases c.contains pair.2.geometry pair.1.geometry <;> rfl

theorem exists_collapseStep_eq_ok (acc : List (Level F G)) (level : Level F G) :
    ∃ acc', collapseStep (c.engine E) acc level = .ok acc' := by
  unfold collapseStep
  cases acc.getLast? with
  | none => exact ⟨_, rfl⟩
  | some previous => exact ⟨_, rfl⟩

open Classical in
theorem collapseLevels_engine (levels : List (Level F G)) :
    collapseLevels (c.engine E) levels = .ok (levels.destutter (Differs (c.engine E))) := by
  -- no step fails, and a collapse that succeeds is known already
  have hex : ∀ acc, ∃ r, levels.foldlM (collapseStep (c.engine E)) acc = .ok r := by
    induction levels with
    | nil => exact fun acc => ⟨acc, rfl⟩
    | cons level levels ih =>
      intro acc
      obtain ⟨acc', hstep⟩ := exists_collapseStep_eq_ok acc level
      rw [List.foldlM_cons, hstep, ok_bind]
      exact ih acc'
  obtain ⟨r, hr⟩ := hex []
  rw [← collapseLevels_eq_ok hr]
  exact hr

/-! ## The verdict -/

/-- The normalized levels, by descending alpha. -/
def sortedLevels (c : CrispEngine G P) (raw : List (Level F G)) : List (Level F G) :=
  sortLevels (raw.map c.normalizeLevel)

open Classical in
/-- The sorted levels without repeated extents. -/
noncomputable def collapsedLevels (c : CrispEngine G P) (E : Type) (raw : List (Level F G)) :
    List (Level F G) :=
  (sortedLevels c raw).destutter (Differs (c.engine E))

open Classical in
theorem collapsedLevels_sublist (c : CrispEngine G P) (E : Type) (raw : List (Level F G)) :
    (collapsedLevels c E raw).Sublist (sortedLevels c raw) :=
  List.destutter_sublist _ _

/-- The result of canonicalizing levels, with what the searches of its passes found. -/
inductive Verdict (c : CrispEngine G P) (raw : List (Level F G)) :
    CoreResult F E (Fuzzyregion F G) → Prop
  | emptyGeometry {l : Level F G} (hfound : raw.find? (isVoid c) = some l) :
      Verdict c raw (.error (.emptyGeometry l.alpha))
  | noLevels (hnil : raw = []) : Verdict c raw (.ok (empty none))
  | duplicateAlpha {pair : Level F G × Level F G} (hlive : ∀ l ∈ raw, isVoid c l = false)
      (hfound : (windows (sortedLevels c raw)).find?
        (fun pair => pair.1.alpha.eq pair.2.alpha) = some pair) :
      Verdict c raw (.error (.duplicateAlpha pair.1.alpha))
  | mixedSrid {first : Level F G} {rest : List (Level F G)} {l : Level F G}
      (hlive : ∀ l ∈ raw, isVoid c l = false)
      (hdesc : (sortedLevels c raw).Pairwise fun higher lower => lower.alpha < higher.alpha)
      (hsort : sortedLevels c raw = first :: rest)
      (hfound : rest.find? (fun l => c.srid l.geometry != c.srid first.geometry) = some l) :
      Verdict c raw (.error
        (.mixedSrid (c.srid first.geometry) (c.srid l.geometry) l.alpha))
  | nonNested {s : Int32} {pair : Level F G × Level F G} (hlive : ∀ l ∈ raw, isVoid c l = false)
      (hdesc : (sortedLevels c raw).Pairwise fun higher lower => lower.alpha < higher.alpha)
      (hsrid : ∀ l ∈ sortedLevels c raw, c.srid l.geometry = s)
      (hfound : (windows (collapsedLevels c E raw)).find?
        (fun pair => !c.contains pair.2.geometry pair.1.geometry) = some pair) :
      Verdict c raw (.error (.nonNestedLevels pair.1.alpha pair.2.alpha))
  | accepted {s : Int32} (hlive : ∀ l ∈ raw, isVoid c l = false)
      (hdesc : (sortedLevels c raw).Pairwise fun higher lower => lower.alpha < higher.alpha)
      (hsrid : ∀ l ∈ sortedLevels c raw, c.srid l.geometry = s)
      (hnested : (collapsedLevels c E raw).IsChain fun higher lower =>
        c.contains lower.geometry higher.geometry = true) :
      Verdict c raw (.ok ⟨some s, collapsedLevels c E raw⟩)

/-- The last pass, on sorted levels of one SRID. -/
theorem verdict_of_oneSrid {raw : List (Level F G)} {s : Int32}
    (hlive : ∀ l ∈ raw, isVoid c l = false)
    (hdesc : (sortedLevels c raw).Pairwise fun higher lower => lower.alpha < higher.alpha)
    (hsrid : ∀ l ∈ sortedLevels c raw, c.srid l.geometry = s) :
    Verdict c raw (checkNesting (c.engine E) (collapsedLevels c E raw) >>= fun _ =>
      (.ok ⟨some s, collapsedLevels c E raw⟩ : CoreResult F E _)) := by
  rw [checkNesting_engine]
  cases hnest : (windows (collapsedLevels c E raw)).find? fun pair =>
      !c.contains pair.2.geometry pair.1.geometry with
  | some pair => exact .nonNested hlive hdesc hsrid hnest
  | none =>
    have hnested : checkNesting (c.engine E) (collapsedLevels c E raw) = .ok () := by
      rw [checkNesting_engine, hnest, Option.elim_none]
    exact .accepted hlive hdesc hsrid
      ((checkNesting_eq_ok_iff.mp hnested).imp fun _ _ h => Except.ok.inj h)

/-- The passes after the check of the alphas. -/
theorem verdict_of_distinct {raw rest : List (Level F G)} {first : Level F G}
    (hlive : ∀ l ∈ raw, isVoid c l = false)
    (hdesc : (sortedLevels c raw).Pairwise fun higher lower => lower.alpha < higher.alpha)
    (hsort : sortedLevels c raw = first :: rest) :
    Verdict c raw (checkSrids (c.engine E) (c.srid first.geometry) rest >>= fun _ =>
      collapseLevels (c.engine E) (first :: rest) >>= fun collapsed =>
        checkNesting (c.engine E) collapsed >>= fun _ =>
          (.ok ⟨some (c.srid first.geometry), collapsed⟩ : CoreResult F E _)) := by
  classical
  rw [checkSrids_engine]
  cases hother : rest.find? fun l => c.srid l.geometry != c.srid first.geometry with
  | some l => exact .mixedSrid hlive hdesc hsort hother
  | none =>
    have hrest : ∀ l ∈ rest, c.srid l.geometry = c.srid first.geometry := by
      simpa using hother
    have hsrid : ∀ l ∈ sortedLevels c raw, c.srid l.geometry = c.srid first.geometry := by
      rw [hsort]
      exact List.forall_mem_cons.mpr ⟨rfl, hrest⟩
    have hcollapsed : (first :: rest).destutter (Differs (c.engine E)) =
        collapsedLevels c E raw := by
      rw [collapsedLevels, hsort]
    rw [Option.elim_none, ok_bind, collapseLevels_engine, ok_bind, hcollapsed]
    exact verdict_of_oneSrid hlive hdesc hsrid

/-- Canonicalization ends with one of the verdicts. -/
theorem verdict (c : CrispEngine G P) (raw : List (Level F G)) :
    Verdict c raw (canonicalize ⟨raw⟩ (c.engine E)) := by
  rw [canonicalize, normalizeLevels_engine]
  cases hvoid : raw.find? (isVoid c) with
  | some l => exact .emptyGeometry hvoid
  | none =>
    have hlive : ∀ l ∈ raw, isVoid c l = false := by simpa using hvoid
    have hsorted : (sortedLevels c raw).Pairwise fun higher lower => lower.alpha ≤ higher.alpha :=
      pairwise_sortLevels (raw.map c.normalizeLevel)
    rw [Option.elim_none, ok_bind, ← sortedLevels]
    cases hsort : sortedLevels c raw with
    | nil =>
      -- sorting loses no level
      have hlen := (sortLevels_perm (raw.map c.normalizeLevel)).length_eq
      rw [← sortedLevels, hsort, List.length_map] at hlen
      exact .noLevels (List.eq_nil_of_length_eq_zero hlen.symm)
    | cons first rest =>
      simp only [checkDuplicateAlphas_eq]
      cases hdup : (windows (first :: rest)).find? fun pair => pair.1.alpha.eq pair.2.alpha with
      | some pair => exact .duplicateAlpha hlive (hsort ▸ hdup)
      | none =>
        have hdistinct : (checkDuplicateAlphas (first :: rest) : CoreResult F E Unit) = .ok () := by
          rw [checkDuplicateAlphas_eq, hdup, Option.elim_none]
        have hdesc := pairwise_lt_of_isChain_ne (hsort ▸ hsorted)
          (checkDuplicateAlphas_eq_ok_iff.mp hdistinct)
        simp only [Option.elim_none, ok_bind, CrispEngine.engine_srid, mapError_ok]
        exact verdict_of_distinct hlive (hsort ▸ hdesc) hsort

end Fuzzyregion

end FuzzyRegion
