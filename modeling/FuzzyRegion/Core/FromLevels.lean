import FuzzyRegion.Core.Meaning
import FuzzyRegion.Core.Rebuild
import FuzzyRegion.Data.Descending

/-!
# Raw level lists

What canonicalization makes of a list of levels: the memberships that the list describes, in
whatever order it does so. A list is accepted exactly when it is a stack up to its order, the error
of a refused list names the first defect, and the levels of an accepted list are accepted again.

## Main definitions

* `WellFormed c raw`: live geometries of one SRID, distinct alphas, nested in the order of alphas
* `Refused c raw error`: the defect of the list that an error names

## Main results

* `canonicalize_meaning`: canonicalization keeps the memberships of the raw list
* `fromLevels_ok_iff_wellFormed`: when a list is accepted, and why not otherwise
* `fromLevels_perm`: the order of the list does not matter
* `fromLevels_levels`: the levels of a region built before rebuild it
-/

namespace FuzzyRegion

open Fallible LevelStack

namespace Fuzzyregion

variable {F G P E : Type} [LawfulScalar F]

/-! ## Meaning -/

theorem mem_sortedLevels_iff {c : CrispEngine G P} {raw : List (Level F G)} {l : Level F G} :
    l ∈ sortedLevels c raw ↔ ∃ k ∈ raw, c.normalizeLevel k = l :=
  (sortLevels_perm _).mem_iff.trans List.mem_map

theorem normalizeLevel_mem_sortedLevels {c : CrispEngine G P} {raw : List (Level F G)}
    {l : Level F G} (hl : l ∈ raw) : c.normalizeLevel l ∈ sortedLevels c raw :=
  mem_sortedLevels_iff.mpr ⟨l, hl, rfl⟩

/-- The result of canonicalization grades a point as the raw levels do. -/
theorem coe_le_grade_canonicalize_iff {e : PointSetEngine G P} {raw : List (Level F G)}
    {v : Fuzzyregion F G} (h : canonicalize ⟨raw⟩ (e.engine E) = .ok v) (p : P) (t : Alpha F) :
    (t : WithBot (Alpha F)) ≤ grade (e.stack v.levels) p ↔
      ∃ l ∈ raw, t ≤ l.alpha ∧ p ∈ e.points l.geometry := by
  have hverdict := verdict (E := E) e.toCrispEngine raw
  rw [h] at hverdict
  cases hverdict with
  | noLevels hnil =>
    rw [hnil, coe_le_grade_stack_iff]
    rfl
  | accepted hlive hdesc hsrid hnested =>
    have hstack : (e.stack (sortedLevels e.toCrispEngine raw)).Pairwise fun a b => b.1 < a.1 :=
      List.pairwise_map.mpr hdesc
    -- the collapse keeps the grades of the sorted levels, which are the raw ones
    rw [collapsedLevels, stack_destutter hsrid, grade_destutter hstack,
      coe_le_grade_stack_iff]
    constructor
    · rintro ⟨l, hl, hle, hp⟩
      obtain ⟨k, hk, rfl⟩ := mem_sortedLevels_iff.mp hl
      exact ⟨k, hk, hle, (e.points_normalize k.geometry).subset hp⟩
    · rintro ⟨k, hk, hle, hp⟩
      refine ⟨_, normalizeLevel_mem_sortedLevels hk, hle, ?_⟩
      exact (e.points_normalize k.geometry).superset hp

/-- A cut of the result covers what some raw level at or above the threshold covers. -/
theorem mem_alphaCut_canonicalize_iff {e : PointSetEngine G P} {raw : List (Level F G)}
    {v : Fuzzyregion F G} (h : canonicalize ⟨raw⟩ (e.engine E) = .ok v) (p : P)
    (t : AlphaThreshold F) :
    p ∈ e.covered (v.alphaCut t) ↔ ∃ l ∈ raw, t.toRat ≤ l.alpha.toRat ∧ p ∈ e.points l.geometry := by
  have hgrade := coe_le_grade_canonicalize_iff h p
  rw [(canonicalize_canonical h).mem_alphaCut_iff]
  constructor
  · rintro ⟨a, ha, hle⟩
    obtain ⟨l, hl, hal, hp⟩ := (hgrade a).mp ha.ge
    exact ⟨l, hl, hle.trans (Alpha.le_def.mp hal), hp⟩
  · rintro ⟨l, hl, hle, hp⟩
    -- the grade of the point is at least the alpha of the level that covers it
    obtain ⟨a, ha, hla⟩ := WithBot.coe_le_iff.mp ((hgrade l.alpha).mpr ⟨l, hl, le_rfl, hp⟩)
    exact ⟨a, ha, hle.trans (Alpha.le_def.mp hla)⟩

/-- **Canonicalization preserves meaning**: the membership of a point is the greatest alpha of a
raw level that covers it, and a cut covers what some raw level at or above the threshold covers. -/
theorem canonicalize_meaning (e : PointSetEngine G P) {raw : List (Level F G)}
    {v : Fuzzyregion F G} (h : canonicalize ⟨raw⟩ (e.engine E) = .ok v) (p : P) :
    (∃ m, v.membershipAt (e.engine E) p = .ok m ∧
      IsMaximum {a | ∃ l ∈ raw, l.alpha = a ∧
        (e.engine E).containsPoint l.geometry p = .ok true} m) ∧
    ∀ t : AlphaThreshold F, Covers (e.engine E) (v.alphaCut t) p ↔
      ∃ l ∈ raw, t.toRat ≤ l.alpha.toRat ∧
        (e.engine E).containsPoint l.geometry p = .ok true := by
  have hv := canonicalize_canonical h
  have hgrade := coe_le_grade_canonicalize_iff h p
  simp only [CrispEngine.engine_containsPoint, Except.ok.injEq, e.containsPoint_iff]
  constructor
  · apply hv.isMaximum_membershipAt
    intro t
    rw [hgrade]
    constructor
    · rintro ⟨l, hl, hle, hp⟩
      exact ⟨l.alpha, ⟨l, hl, rfl, hp⟩, hle⟩
    · rintro ⟨a, ⟨l, hl, rfl, hp⟩, hle⟩
      exact ⟨l, hl, hle, hp⟩
  · intro t
    rw [covers_iff]
    exact mem_alphaCut_canonicalize_iff h p t

theorem canonicalize_meaning_hill :
    ∃ m, hill.membershipAt (mockEngine.engine Empty) 2 = .ok m ∧
      IsMaximum {a | ∃ l ∈ hill.levels.reverse, l.alpha = a ∧
        (mockEngine.engine Empty).containsPoint l.geometry 2 = .ok true} m :=
  (canonicalize_meaning mockEngine.toPointSetEngine canonicalize_hill 2).1

/-! ## Acceptance -/

/-- Every normalized geometry is non-empty and has the one SRID, alphas are distinct, and by
descending alpha every geometry is contained in the next. -/
structure WellFormed (c : CrispEngine G P) (raw : List (Level F G)) : Prop where
  nonEmpty : ∀ l ∈ raw, c.isEmpty (c.normalizeMultipolygon l.geometry) = false
  distinct : (raw.map Level.alpha).Nodup
  sameSrid : ∀ l ∈ raw, ∀ m ∈ raw,
    c.srid (c.normalizeMultipolygon l.geometry) = c.srid (c.normalizeMultipolygon m.geometry)
  nested : ∀ sorted : List (Level F G), sorted.Perm raw →
    sorted.Pairwise (fun higher lower => lower.alpha < higher.alpha) →
    sorted.IsChain fun higher lower => c.contains (c.normalizeMultipolygon lower.geometry)
      (c.normalizeMultipolygon higher.geometry) = true

/-- The defect of a raw list that an error of `from_levels` names. A later kind of defect is named
only in the absence of the earlier ones. -/
inductive Refused (c : CrispEngine G P) (raw : List (Level F G)) : CoreError F E → Prop
  /-- The first empty geometry in input order. -/
  | emptyGeometry {pre post : List (Level F G)} {l : Level F G} (hraw : raw = pre ++ l :: post)
      (hempty : c.isEmpty (c.normalizeMultipolygon l.geometry) = true)
      (hfirst : ∀ k ∈ pre, c.isEmpty (c.normalizeMultipolygon k.geometry) = false) :
      Refused c raw (.emptyGeometry l.alpha)
  /-- The greatest alpha that occurs twice. -/
  | duplicateAlpha {a : Alpha F}
      (hlive : ∀ l ∈ raw, c.isEmpty (c.normalizeMultipolygon l.geometry) = false)
      (htwice : 2 ≤ (raw.map Level.alpha).count a)
      (hgreatest : ∀ a', 2 ≤ (raw.map Level.alpha).count a' → a' ≤ a) :
      Refused c raw (.duplicateAlpha a)
  /-- The greatest alpha whose SRID is not that of the top level. -/
  | mixedSrid {top l : Level F G}
      (hlive : ∀ l ∈ raw, c.isEmpty (c.normalizeMultipolygon l.geometry) = false)
      (hdistinct : (raw.map Level.alpha).Nodup) (htop : top ∈ raw)
      (hle : ∀ k ∈ raw, k.alpha ≤ top.alpha) (hl : l ∈ raw)
      (hother : c.srid (c.normalizeMultipolygon l.geometry) ≠
        c.srid (c.normalizeMultipolygon top.geometry))
      (hgreatest : ∀ k ∈ raw, c.srid (c.normalizeMultipolygon k.geometry) ≠
        c.srid (c.normalizeMultipolygon top.geometry) → k.alpha ≤ l.alpha) :
      Refused c raw (.mixedSrid (c.srid (c.normalizeMultipolygon top.geometry))
        (c.srid (c.normalizeMultipolygon l.geometry)) l.alpha)
  /-- Two levels of which the higher is not contained in the lower. -/
  | nonNestedLevels {higher lower : Level F G}
      (hlive : ∀ l ∈ raw, c.isEmpty (c.normalizeMultipolygon l.geometry) = false)
      (hdistinct : (raw.map Level.alpha).Nodup)
      (hsrid : ∀ l ∈ raw, ∀ m ∈ raw, c.srid (c.normalizeMultipolygon l.geometry) =
        c.srid (c.normalizeMultipolygon m.geometry))
      (hhigher : higher ∈ raw) (hlower : lower ∈ raw) (hlt : lower.alpha < higher.alpha)
      (hnot : c.contains (c.normalizeMultipolygon lower.geometry)
        (c.normalizeMultipolygon higher.geometry) = false) :
      Refused c raw (.nonNestedLevels higher.alpha lower.alpha)

section

variable {c : CrispEngine G P} {raw : List (Level F G)}

theorem sortedLevels_eq_map (c : CrispEngine G P) (raw : List (Level F G)) :
    sortedLevels c raw = (sortLevels raw).map c.normalizeLevel :=
  (List.map_insertionSort _ _ c.normalizeLevel raw fun _ _ _ _ => Iff.rfl).symm

theorem map_alpha_sortedLevels (c : CrispEngine G P) (raw : List (Level F G)) :
    ((sortedLevels c raw).map Level.alpha).Perm (raw.map Level.alpha) := by
  rw [sortedLevels_eq_map, List.map_map]
  exact (sortLevels_perm raw).map Level.alpha

theorem nodup_of_descending (h : (sortedLevels c raw).Pairwise
    fun higher lower => lower.alpha < higher.alpha) : (raw.map Level.alpha).Nodup := by
  rw [← (map_alpha_sortedLevels c raw).nodup_iff]
  exact List.pairwise_map.mpr (h.imp fun hlt => hlt.ne')

/-- The raw list in the order of its alphas. -/
theorem descending_sortLevels (h : (raw.map Level.alpha).Nodup) :
    (sortLevels raw).Pairwise fun higher lower => lower.alpha < higher.alpha := by
  have hne := ((sortLevels_perm raw).map Level.alpha).nodup_iff.mpr h
  exact ((pairwise_sortLevels raw).and (List.pairwise_map.mp hne)).imp fun h =>
    h.1.lt_of_ne h.2.symm

/-- The first repetition among the sorted levels is the greatest repeated alpha of the list. -/
theorem count_of_find?_sortedLevels {pair : Level F G × Level F G}
    (h : (windows (sortedLevels c raw)).find? (fun pair => pair.1.alpha.eq pair.2.alpha) =
      some pair) :
    2 ≤ (raw.map Level.alpha).count pair.1.alpha ∧
      ∀ a, 2 ≤ (raw.map Level.alpha).count a → a ≤ pair.1.alpha := by
  have hsorted : ((sortedLevels c raw).map Level.alpha).Pairwise fun a b => b ≤ a :=
    List.pairwise_map.mpr (pairwise_sortLevels _)
  have hfind : (windows ((sortedLevels c raw).map Level.alpha)).find?
      (fun p => decide (p.1 = p.2)) = some (Prod.map Level.alpha Level.alpha pair) := by
    rw [Descending.windows_map, List.find?_map]
    have heq : ((fun p => decide (p.1 = p.2)) ∘ Prod.map Level.alpha Level.alpha :
        Level F G × Level F G → Bool) = fun pair => pair.1.alpha.eq pair.2.alpha := by
      funext pair
      exact Bool.eq_iff_iff.mpr (decide_eq_true_iff.trans Alpha.eq_iff.symm)
    rw [heq, h, Option.map_some]
  have hcount := Descending.count_of_find?_windows hsorted hfind
  simp only [(map_alpha_sortedLevels c raw).count_eq] at hcount
  exact hcount

/-- The first level of another SRID than the top level is the highest such level. -/
theorem refused_of_mixedSrid {first l : Level F G} {rest : List (Level F G)}
    (hlive : ∀ l ∈ raw, isVoid c l = false)
    (hdesc : (sortedLevels c raw).Pairwise fun higher lower => lower.alpha < higher.alpha)
    (hsort : sortedLevels c raw = first :: rest)
    (hfound : rest.find? (fun l => c.srid l.geometry != c.srid first.geometry) = some l) :
    Refused c raw (.mixedSrid (c.srid first.geometry) (c.srid l.geometry) l.alpha :
      CoreError F E) := by
  have hle : (sortedLevels c raw).Pairwise fun higher lower => lower.alpha ≤ higher.alpha :=
    hdesc.imp le_of_lt
  -- the top level has its own SRID, so the search may start with it
  have hsearch : (sortedLevels c raw).find?
      (fun l => c.srid l.geometry != c.srid first.geometry) = some l := by
    rw [hsort, List.find?_cons_of_neg (by simp)]
    exact hfound
  have htop : ∀ k ∈ sortedLevels c raw, k.alpha ≤ first.alpha := by
    rw [hsort] at hle ⊢
    exact List.forall_mem_cons.mpr ⟨le_rfl, (List.pairwise_cons.mp hle).1⟩
  have hgreatest := fun k hk => Descending.le_of_find? hle hsearch (b := k) hk
  obtain ⟨top, hmem, rfl⟩ := mem_sortedLevels_iff.mp (hsort ▸ List.mem_cons_self)
  obtain ⟨other, hother, rfl⟩ := mem_sortedLevels_iff.mp (List.mem_of_find?_eq_some hsearch)
  have hne := List.find?_some hsearch
  change Refused c raw (.mixedSrid (c.srid (c.normalizeMultipolygon top.geometry))
    (c.srid (c.normalizeMultipolygon other.geometry)) other.alpha)
  refine .mixedSrid hlive (nodup_of_descending hdesc) hmem (fun k hk => ?_) hother
    (bne_iff_ne.mp hne) fun k hk hk' => ?_
  · exact htop (c.normalizeLevel k) (normalizeLevel_mem_sortedLevels hk)
  · exact hgreatest (c.normalizeLevel k) (normalizeLevel_mem_sortedLevels hk) (bne_iff_ne.mpr hk')

/-- Neighbours of the collapsed list come from the raw list. -/
theorem refused_of_nonNested {s : Int32} {pair : Level F G × Level F G}
    (hlive : ∀ l ∈ raw, isVoid c l = false)
    (hdesc : (sortedLevels c raw).Pairwise fun higher lower => lower.alpha < higher.alpha)
    (hsrid : ∀ l ∈ sortedLevels c raw, c.srid l.geometry = s)
    (hfound : (windows (collapsedLevels c E raw)).find?
      (fun pair => !c.contains pair.2.geometry pair.1.geometry) = some pair) :
    Refused c raw (.nonNestedLevels pair.1.alpha pair.2.alpha : CoreError F E) := by
  have hpair := List.mem_of_find?_eq_some hfound
  have hsub := collapsedLevels_sublist c E raw
  have hlt := rel_of_mem_windows (hdesc.sublist hsub).isChain hpair
  have hnot := List.find?_some hfound
  obtain ⟨hhigher, hlower⟩ := mem_of_mem_windows hpair
  obtain ⟨higher, hh, hheq⟩ := mem_sortedLevels_iff.mp (hsub.subset hhigher)
  obtain ⟨lower, hl, hleq⟩ := mem_sortedLevels_iff.mp (hsub.subset hlower)
  rw [← hheq, ← hleq] at hlt hnot ⊢
  change Refused c raw (.nonNestedLevels higher.alpha lower.alpha)
  refine .nonNestedLevels hlive (nodup_of_descending hdesc) (fun k hk m hm => ?_) hh hl hlt
    (Bool.not_eq_true' _ ▸ hnot)
  exact (hsrid _ (normalizeLevel_mem_sortedLevels hk)).trans
    (hsrid _ (normalizeLevel_mem_sortedLevels hm)).symm

/-- Every error of canonicalization names a defect of the list. -/
theorem refused_of_fromLevels {error : CoreError F E}
    (h : fromLevels raw (c.engine E) = .error error) : Refused c raw error := by
  have hverdict := verdict (E := E) c raw
  rw [fromLevels] at h
  rw [h] at hverdict
  cases hverdict with
  | emptyGeometry hfound =>
    obtain ⟨hvoid, pre, post, hraw, hpre⟩ := List.find?_eq_some_iff_append.mp hfound
    exact .emptyGeometry hraw hvoid fun k hk => by simpa [isVoid] using hpre k hk
  | duplicateAlpha hlive hfound =>
    obtain ⟨htwice, hgreatest⟩ := count_of_find?_sortedLevels hfound
    exact .duplicateAlpha hlive htwice hgreatest
  | mixedSrid hlive hdesc hsort hfound => exact refused_of_mixedSrid hlive hdesc hsort hfound
  | nonNested hlive hdesc hsrid hfound => exact refused_of_nonNested hlive hdesc hsrid hfound

/-- In a well-formed list every level is contained in all lower ones. -/
theorem WellFormed.contains {e : RegularizedEngine G P} (h : WellFormed e.toCrispEngine raw)
    {higher lower : Level F G} (hhigher : higher ∈ raw) (hlower : lower ∈ raw)
    (hlt : lower.alpha < higher.alpha) :
    e.contains (e.normalizeMultipolygon lower.geometry)
      (e.normalizeMultipolygon higher.geometry) = true := by
  have hperm := sortLevels_perm raw
  have hdesc := descending_sortLevels h.distinct
  have hsub : (sortLevels raw).IsChain fun higher lower =>
      e.points (e.normalizeMultipolygon higher.geometry) ⊆
        e.points (e.normalizeMultipolygon lower.geometry) := by
    refine List.IsChain.imp_of_mem_imp ?_ (h.nested _ hperm hdesc)
    intro a b ha hb hcontains
    exact (e.contains_iff (h.sameSrid b (hperm.subset hb) a (hperm.subset ha))).mp hcontains
  -- on point sets, containment passes from neighbours to all pairs
  have htrans : IsTrans (Level F G) fun higher lower =>
      e.points (e.normalizeMultipolygon higher.geometry) ⊆
        e.points (e.normalizeMultipolygon lower.geometry) := ⟨fun _ _ _ h h' => h.trans h'⟩
  apply (e.contains_iff (h.sameSrid lower hlower higher hhigher)).mpr
  exact Descending.rel_of_key_lt (hdesc.and hsub.pairwise) (hperm.mem_iff.mpr hhigher)
    (hperm.mem_iff.mpr hlower) hlt

/-- A defect is a violation of the well-formedness. -/
theorem Refused.not_wellFormed {e : RegularizedEngine G P} {error : CoreError F E}
    (h : Refused e.toCrispEngine raw error) : ¬ WellFormed e.toCrispEngine raw := by
  intro hwell
  cases h with
  | emptyGeometry hraw hempty hfirst =>
    have hl := hraw ▸ List.mem_append_right _ List.mem_cons_self
    exact Bool.false_ne_true ((hwell.nonEmpty _ hl).symm.trans hempty)
  | duplicateAlpha hlive htwice hgreatest =>
    exact absurd (List.nodup_iff_count_le_one.mp hwell.distinct _) (Nat.not_le.mpr htwice)
  | mixedSrid hlive hdistinct htop hle hl hother hgreatest =>
    exact hother (hwell.sameSrid _ hl _ htop)
  | nonNestedLevels hlive hdistinct hsrid hhigher hlower hlt hnot =>
    exact Bool.false_ne_true (hnot.symm.trans (hwell.contains hhigher hlower hlt))

/-- A list that is accepted was well formed: what the collapse drops repeats a retained level. -/
theorem wellFormed_of_fromLevels {e : RegularizedEngine G P} {v : Fuzzyregion F G}
    (h : fromLevels raw (e.engine E) = .ok v) : WellFormed e.toCrispEngine raw := by
  have hverdict := verdict (E := E) e.toCrispEngine raw
  rw [fromLevels] at h
  rw [h] at hverdict
  cases hverdict with
  | noLevels hnil =>
    subst hnil
    refine ⟨by simp, by simp, by simp, fun sorted hperm _ => ?_⟩
    rw [hperm.eq_nil]
    exact .nil
  | accepted hlive hdesc hsrid hnested =>
    have hdistinct := nodup_of_descending hdesc
    have hsame : ∀ l ∈ raw, ∀ m ∈ raw, e.srid (e.normalizeMultipolygon l.geometry) =
        e.srid (e.normalizeMultipolygon m.geometry) := fun l hl m hm =>
      (hsrid _ (normalizeLevel_mem_sortedLevels hl)).trans
        (hsrid _ (normalizeLevel_mem_sortedLevels hm)).symm
    refine ⟨hlive, hdistinct, hsame, fun sorted hperm hsorted => ?_⟩
    -- the collapsed levels are nested as point sets, and so are the sorted ones
    have hsub : (e.stack (collapsedLevels e.toCrispEngine E raw)).IsChain fun a b => a.2 ⊆ b.2 := by
      refine (List.isChain_map _).mpr (List.IsChain.imp_of_mem_imp ?_ hnested)
      intro higher lower hh hl hcontains
      have hmem := collapsedLevels_sublist e.toCrispEngine E raw
      exact (e.contains_iff ((hsrid _ (hmem.subset hl)).trans
        (hsrid _ (hmem.subset hh)).symm)).mp hcontains
    rw [collapsedLevels, stack_destutter hsrid] at hsub
    have hchain := (List.isChain_map _).mp
      (isChain_of_isChain_destutter (fun s => Set.Subset.refl s) hsub)
    rw [sortedLevels_eq_map, List.isChain_map] at hchain
    -- the descending order of distinct alphas is unique
    have heq : sorted = sortLevels raw := Descending.eq_of_perm (hsorted.imp le_of_lt)
      (pairwise_sortLevels raw) (hperm.trans (sortLevels_perm raw).symm)
      ((hperm.map Level.alpha).nodup_iff.mpr hdistinct)
    rw [heq]
    refine List.IsChain.imp_of_mem_imp ?_ hchain
    intro higher lower hh hl hle
    exact (e.contains_iff (hsame _ ((sortLevels_perm raw).subset hl) _
      ((sortLevels_perm raw).subset hh))).mpr hle

end

/-- The well-formed lists are accepted. -/
theorem exists_fromLevels_iff {e : RegularizedEngine G P} {raw : List (Level F G)} :
    (∃ v, fromLevels raw (e.engine E) = .ok v) ↔ WellFormed e.toCrispEngine raw := by
  refine ⟨?_, fun hwell => ?_⟩
  · rintro ⟨v, h⟩
    exact wellFormed_of_fromLevels h
  · cases h : fromLevels raw (e.engine E) with
    | ok v => exact ⟨v, rfl⟩
    | error error => exact absurd hwell (refused_of_fromLevels h).not_wellFormed

/-- **Canonicalization accepts exactly the well-formed lists**, and its error names the first
defect of a refused one. -/
theorem fromLevels_ok_iff_wellFormed (e : RegularizedEngine G P) (raw : List (Level F G)) :
    ((∃ v, fromLevels raw (e.engine E) = .ok v) ↔ WellFormed e.toCrispEngine raw) ∧
    ∀ error, fromLevels raw (e.engine E) = .error error → Refused e.toCrispEngine raw error :=
  ⟨exists_fromLevels_iff, fun _ => refused_of_fromLevels⟩

/-! ## Order -/

section

variable {c : CrispEngine G P} {raw raw' : List (Level F G)}

/-- Without empty geometries the sorted levels determine the result. -/
theorem fromLevels_congr (hlive : ∀ l ∈ raw, isVoid c l = false)
    (hlive' : ∀ l ∈ raw', isVoid c l = false) (hsorted : sortedLevels c raw = sortedLevels c raw') :
    fromLevels raw (c.engine E) = fromLevels raw' (c.engine E) := by
  have hnone : raw.find? (isVoid c) = none := by simpa using hlive
  have hnone' : raw'.find? (isVoid c) = none := by simpa using hlive'
  rw [fromLevels, fromLevels, canonicalize, canonicalize, normalizeLevels_engine,
    normalizeLevels_engine, hnone, hnone']
  simp only [Option.elim_none, ok_bind, ← sortedLevels.eq_1, hsorted]

/-- Without empty geometries a repeated alpha is refused before anything else. -/
theorem fromLevels_of_not_nodup (hlive : ∀ l ∈ raw, isVoid c l = false)
    (hdup : ¬ (raw.map Level.alpha).Nodup) :
    ∃ a, fromLevels raw (c.engine E) = .error (.duplicateAlpha a) ∧
      2 ≤ (raw.map Level.alpha).count a ∧
      ∀ a', 2 ≤ (raw.map Level.alpha).count a' → a' ≤ a := by
  have hverdict := verdict (E := E) c raw
  rw [fromLevels]
  generalize canonicalize ⟨raw⟩ (c.engine E) = result at hverdict
  cases hverdict with
  | emptyGeometry hfound =>
    have hvoid := List.find?_some hfound
    exact absurd (hlive _ (List.mem_of_find?_eq_some hfound)) (by simp [hvoid])
  | noLevels hnil => exact absurd (by simp [hnil]) hdup
  | duplicateAlpha _ hfound => exact ⟨_, rfl, count_of_find?_sortedLevels hfound⟩
  | mixedSrid _ hdesc _ _ => exact absurd (nodup_of_descending hdesc) hdup
  | nonNested _ hdesc _ _ => exact absurd (nodup_of_descending hdesc) hdup
  | accepted _ hdesc _ _ => exact absurd (nodup_of_descending hdesc) hdup

/-- Without empty geometries the order of the list does not matter, also for errors. -/
theorem fromLevels_eq_of_perm (hperm : raw.Perm raw') (hlive : ∀ l ∈ raw, isVoid c l = false) :
    fromLevels raw (c.engine E) = fromLevels raw' (c.engine E) := by
  have hlive' : ∀ l ∈ raw', isVoid c l = false := fun l hl => hlive l (hperm.mem_iff.mpr hl)
  by_cases hdistinct : (raw.map Level.alpha).Nodup
  · -- distinct alphas leave one way to sort
    apply fromLevels_congr hlive hlive'
    have hsorted : (sortedLevels c raw).Perm (sortedLevels c raw') :=
      (sortLevels_perm _).trans ((hperm.map c.normalizeLevel).trans (sortLevels_perm _).symm)
    exact Descending.eq_of_perm (pairwise_sortLevels _) (pairwise_sortLevels _) hsorted
      ((map_alpha_sortedLevels c raw).nodup_iff.mpr hdistinct)
  · -- both lists are refused for their greatest repeated alpha
    have hcount := (hperm.map Level.alpha).count_eq
    have hdistinct' : ¬ (raw'.map Level.alpha).Nodup := by
      rwa [← (hperm.map Level.alpha).nodup_iff]
    obtain ⟨a, ha, htwice, hgreatest⟩ := fromLevels_of_not_nodup (E := E) hlive hdistinct
    obtain ⟨a', ha', htwice', hgreatest'⟩ := fromLevels_of_not_nodup (E := E) hlive' hdistinct'
    obtain rfl : a = a' := le_antisymm (hgreatest' a (hcount a ▸ htwice))
      (hgreatest a' ((hcount a').symm ▸ htwice'))
    rw [ha, ha']

theorem live_of_fromLevels {v : Fuzzyregion F G} (h : fromLevels raw (c.engine E) = .ok v) :
    ∀ l ∈ raw, isVoid c l = false := by
  have hverdict := verdict (E := E) c raw
  rw [fromLevels] at h
  rw [h] at hverdict
  cases hverdict with
  | noLevels hnil => simp [hnil]
  | accepted hlive _ _ _ => exact hlive

/-- **The order of the raw levels does not matter**: a permuted list is accepted with the same
value, and without empty geometries it is refused with the same error. -/
theorem fromLevels_perm (c : CrispEngine G P) {raw raw' : List (Level F G)}
    (hperm : raw.Perm raw') :
    (∀ v, fromLevels raw (c.engine E) = .ok v ↔ fromLevels raw' (c.engine E) = .ok v) ∧
    ((∀ l ∈ raw, c.isEmpty (c.normalizeMultipolygon l.geometry) = false) →
      fromLevels raw (c.engine E) = fromLevels raw' (c.engine E)) := by
  refine ⟨fun v => ⟨fun h => ?_, fun h => ?_⟩, fromLevels_eq_of_perm hperm⟩
  · rwa [← fromLevels_eq_of_perm hperm (live_of_fromLevels h)]
  · rwa [← fromLevels_eq_of_perm hperm.symm (live_of_fromLevels h)]

theorem fromLevels_perm_hill :
    fromLevels hill.levels.reverse (mockEngine.engine Empty) =
      fromLevels hill.levels (mockEngine.engine Empty) :=
  (fromLevels_perm mockEngine.toCrispEngine (List.reverse_perm hill.levels)).2 (by decide)

end

/-! ## Idempotence -/

/-- **The levels of a region rebuild it**: on an engine whose normalization is idempotent, a
non-empty region that `from_levels` or a set operation returned is accepted again, as itself. -/
theorem fromLevels_levels (c : CrispEngine G P)
    (hidem : ∀ g, c.normalizeMultipolygon (c.normalizeMultipolygon g) = c.normalizeMultipolygon g)
    {v : Fuzzyregion F G}
    (hv : (∃ raw, fromLevels raw (c.engine E) = .ok v) ∨
      ∃ (op : SetOp) (a b : Fuzzyregion F G), op.run a b (c.engine E) = .ok v)
    (hne : v.levels ≠ []) : fromLevels v.levels (c.engine E) = .ok v := by
  have hcanonical : Canonical (c.engine E) v := by
    rcases hv with ⟨raw, h⟩ | ⟨op, a, b, h⟩
    · exact canonicalize_canonical h
    · exact setOp_canonical h
  have hfix : NormalizeIdempotent (c.engine E) := by
    intro g g' h
    obtain rfl := Except.ok.inj h
    exact congrArg Except.ok (hidem g)
  exact canonicalize_of_canonical hcanonical (fun l hl => hcanonical.normalize_eq hfix hl) hne

/-- The union of `hill` and `plateau`, with its levels collapsed from three to two. -/
def massif : Fuzzyregion ℚ MockGeometry where
  srid := some 4326
  levels := [⟨Alpha.one, ⟨4326, {1}⟩⟩, ⟨fourFifths, ⟨4326, {1, 2, 3}⟩⟩]

theorem fromLevels_levels_massif :
    fromLevels massif.levels (mockEngine.engine Empty) = .ok massif := by
  have hunion : SetOp.union.run hill plateau (mockEngine.engine Empty) = .ok massif := by
    decide +kernel
  exact fromLevels_levels mockEngine.toCrispEngine (fun _ => rfl)
    (.inr ⟨.union, hill, plateau, hunion⟩) (List.cons_ne_nil _ _)

end Fuzzyregion

end FuzzyRegion
