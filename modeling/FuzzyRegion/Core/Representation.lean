import FuzzyRegion.Core.FromLevels
import FuzzyRegion.Data.FuzzySet

/-!
# What regions can mean

The meaning of a region is a fuzzy set of points with finitely many memberships. Its levels are the
cuts at the memberships that occur: none is missing and none is superfluous, so no level list with
the same meaning is shorter. A fuzzy set is the meaning of a region as soon as the backend has a
geometry for each of its cuts.

## Main definitions

* `Fuzzyregion.meaning`: the fuzzy set of a region

## Main results

* `Canonical.stack_eq`: a canonical region is the stack of the cuts of its meaning
* `levels_are_memberships`: the stored alphas are the memberships that occur, and no level list of
  the same meaning is shorter
* `exists_fromLevels_lookup_iff`: the fuzzy sets that are the meaning of a region
-/

namespace FuzzyRegion

open Fallible LevelStack

namespace Fuzzyregion

variable {F G P E : Type} [LawfulScalar F]

/-- The fuzzy set of a region. -/
noncomputable def meaning (e : RegularizedEngine G P) (v : Fuzzyregion F G) :
    FuzzySet (Alpha F) P :=
  .ofStack (e.stack v.levels)

@[simp] theorem meaning_grade (e : RegularizedEngine G P) (v : Fuzzyregion F G) (p : P) :
    (v.meaning e).grade p = grade (e.stack v.levels) p := rfl

section

variable {e : RegularizedEngine G P} {v : Fuzzyregion F G}

theorem Canonical.stack_eq (hv : Canonical (e.engine E) v) :
    e.stack v.levels = (v.meaning e).stack :=
  (FuzzySet.stack_ofStack hv.isStrictStack).symm

theorem map_fst_stack (levels : List (Level F G)) :
    (e.stack levels).map Prod.fst = levels.map Level.alpha := by
  rw [RegularizedEngine.stack, List.map_map]
  rfl

theorem Canonical.mem_values_iff (hv : Canonical (e.engine E) v) {t : Alpha F} :
    t ∈ (v.meaning e).values ↔ t ∈ v.levels.map Level.alpha := by
  rw [meaning, FuzzySet.values_ofStack hv.isStrictStack, map_fst_stack]
  rfl

/-- A level is the cut of the meaning at its alpha. -/
theorem Canonical.points_eq_cut (hv : Canonical (e.engine E) v) {l : Level F G}
    (hl : l ∈ v.levels) : e.points l.geometry = (v.meaning e).cut l.alpha :=
  hv.isStrictStack.isStack.eq_cut (List.mem_map_of_mem hl)

/-- A canonical region has as many levels as memberships occur. -/
theorem Canonical.length_levels (hv : Canonical (e.engine E) v) :
    v.levels.length = (v.meaning e).values.ncard := by
  rw [meaning, ← FuzzySet.length_eq_ncard_values hv.isStrictStack, RegularizedEngine.stack,
    List.length_map]

theorem Canonical.pairwise_alphas (hv : Canonical (e.engine E) v) :
    (v.levels.map Level.alpha).Pairwise fun a b => b < a :=
  List.pairwise_map.mpr hv.descending

/-- The membership lookup returns a value exactly where the meaning takes it. -/
theorem Canonical.setOf_membershipAt_eq (hv : Canonical (e.engine E) v) :
    {t : Alpha F | ∃ p, v.membershipAt (e.engine E) p = .ok (some t)} =
      {t | t ∈ v.levels.map Level.alpha} := by
  ext t
  rw [Set.mem_ofPred_eq, Set.mem_ofPred_eq, ← hv.mem_values_iff, FuzzySet.mem_values_iff]
  exact exists_congr fun p => hv.membershipAt_eq_some_iff p t

/-- A maximum bounds what reaches it. -/
theorem coe_le_iff_of_isMaximum {s : Set (Alpha F)} {m : Option (Alpha F)} (h : IsMaximum s m)
    (t : Alpha F) : (t : WithBot (Alpha F)) ≤ m.elim ⊥ WithBot.some ↔ ∃ a ∈ s, t ≤ a := by
  cases m with
  | none =>
    obtain rfl : s = ∅ := h
    simp
  | some x =>
    obtain ⟨hx, hupper⟩ := h
    rw [Option.elim_some, WithBot.coe_le_coe]
    exact ⟨fun ht => ⟨x, hx, ht⟩, fun ⟨a, ha, hta⟩ => hta.trans (hupper ha)⟩

/-- A level list grades a point by the greatest alpha whose geometry covers it. -/
theorem grade_stack_of_isMaximum {raw : List (Level F G)} {p : P} {m : Option (Alpha F)}
    (hmax : IsMaximum {t | ∃ l ∈ raw, l.alpha = t ∧ p ∈ e.points l.geometry} m) :
    grade (e.stack raw) p = m.elim ⊥ WithBot.some := by
  refine eq_of_coe_le_iff fun t => ?_
  rw [coe_le_iff_of_isMaximum hmax, coe_le_grade_stack_iff]
  constructor
  · rintro ⟨l, hl, htl, hp⟩
    exact ⟨l.alpha, ⟨l, hl, rfl, hp⟩, htl⟩
  · rintro ⟨a, ⟨l, hl, rfl, hp⟩, hta⟩
    exact ⟨l, hl, hta, hp⟩

/-- A level list with the lookups of a region has its meaning. -/
theorem Canonical.meaning_eq_ofStack (hv : Canonical (e.engine E) v) {raw : List (Level F G)}
    (h : ∀ p, ∃ m, v.membershipAt (e.engine E) p = .ok m ∧
      IsMaximum {t | ∃ l ∈ raw, l.alpha = t ∧
        (e.engine E).containsPoint l.geometry p = .ok true} m) :
    v.meaning e = .ofStack (e.stack raw) := by
  refine FuzzySet.ext (funext fun p => ?_)
  obtain ⟨m, hm, hmax⟩ := h p
  obtain ⟨m', hm', hgrade⟩ := hv.membershipAt_eq p
  obtain rfl : m = m' := Except.ok.inj (hm.symm.trans hm')
  simp only [CrispEngine.engine_containsPoint, Except.ok.injEq, e.containsPoint_iff] at hmax
  rw [meaning_grade, hgrade, FuzzySet.ofStack_grade, grade_stack_of_isMaximum hmax]

end

/-- Canonicalization keeps the meaning of a level list. -/
theorem meaning_of_canonicalize {e : PointSetEngine G P} {raw : List (Level F G)}
    {v : Fuzzyregion F G} (h : canonicalize ⟨raw⟩ (e.engine E) = .ok v) :
    v.meaning e.toRegularizedEngine = .ofStack (e.stack raw) := by
  refine FuzzySet.ext (funext fun p => eq_of_coe_le_iff fun t => ?_)
  rw [meaning_grade, coe_le_grade_canonicalize_iff h, FuzzySet.ofStack_grade,
    coe_le_grade_stack_iff]

/-- A region that is built from levels has their SRID. -/
theorem srid_of_fromLevels {e : RegularizedEngine G P} {raw : List (Level F G)}
    {v : Fuzzyregion F G} (h : fromLevels raw (e.engine E) = .ok v) {l : Level F G} (hl : l ∈ raw) :
    v.srid = some (e.srid l.geometry) := by
  have hverdict := verdict (E := E) e.toCrispEngine raw
  rw [fromLevels] at h
  rw [h] at hverdict
  cases hverdict with
  | noLevels hnil =>
    subst hnil
    cases hl
  | accepted hlive hdesc hsrid hnested =>
    rw [← hsrid _ (normalizeLevel_mem_sortedLevels hl)]
    exact congrArg some (e.srid_normalize l.geometry)

theorem exists_level_of_srid {e : RegularizedEngine G P} {raw : List (Level F G)}
    {v : Fuzzyregion F G} (h : fromLevels raw (e.engine E) = .ok v) {s : Int32}
    (hs : v.srid = some s) : ∃ l ∈ raw, e.srid l.geometry = s := by
  cases raw with
  | nil =>
    obtain rfl : empty none = v := Except.ok.inj h
    cases hs
  | cons l rest =>
    have hsrid := srid_of_fromLevels h List.mem_cons_self
    exact ⟨l, List.mem_cons_self, Option.some.inj (hsrid.symm.trans hs)⟩

/-- **The stored alphas of a canonical region are the memberships that occur**: the maximum alpha is
the greatest of them and the minimum alpha the least, and no level list with the same memberships is
shorter. -/
theorem levels_are_memberships (e : RegularizedEngine G P) {v : Fuzzyregion F G}
    (hv : Canonical (e.engine E) v) :
    (∀ t, t ∈ v.levels.map Level.alpha ↔ ∃ p, v.membershipAt (e.engine E) p = .ok (some t)) ∧
    IsMaximum {t | ∃ p, v.membershipAt (e.engine E) p = .ok (some t)} v.maxAlpha ∧
    IsMinimum {t | ∃ p, v.membershipAt (e.engine E) p = .ok (some t)} v.minAlpha ∧
    ∀ raw : List (Level F G),
      (∀ p, ∃ m, v.membershipAt (e.engine E) p = .ok m ∧
        IsMaximum {t | ∃ l ∈ raw, l.alpha = t ∧
          (e.engine E).containsPoint l.geometry p = .ok true} m) →
      v.levels.length ≤ raw.length := by
  rw [hv.setOf_membershipAt_eq]
  refine ⟨fun t => ?_, ?_, ?_, fun raw hraw => ?_⟩
  · exact (Set.ext_iff.mp hv.setOf_membershipAt_eq t).symm
  · rw [maxAlpha, ← List.head?_map]
    exact isMaximum_head? hv.pairwise_alphas
  · rw [minAlpha, ← List.getLast?_map]
    exact isMinimum_getLast? hv.pairwise_alphas
  · rw [hv.length_levels, hv.meaning_eq_ofStack hraw]
    exact (FuzzySet.ncard_values_le_length _).trans_eq (List.length_map _)

theorem levels_are_memberships_hill :
    IsMaximum {t | ∃ p, hill.membershipAt (mockEngine.engine Empty) p = .ok (some t)}
      (some Alpha.one) ∧
    ∀ raw : List (Level ℚ MockGeometry),
      (∀ p, ∃ m, hill.membershipAt (mockEngine.engine Empty) p = .ok m ∧
        IsMaximum {t | ∃ l ∈ raw, l.alpha = t ∧
          (mockEngine.engine Empty).containsPoint l.geometry p = .ok true} m) →
      2 ≤ raw.length :=
  have h := levels_are_memberships mockEngine.toRegularizedEngine canonical_hill
  ⟨h.2.1, h.2.2.2⟩

/-! ## Which fuzzy sets are meanings -/

/-- The fuzzy set of a lookup function with finitely many values. -/
def ofLookup (m : P → Option (Alpha F)) (h : {t | ∃ p, m p = some t}.Finite) :
    FuzzySet (Alpha F) P where
  grade p := (m p).elim ⊥ WithBot.some
  finite := h.subset fun t ⟨p, hp⟩ => by
    cases hm : m p with
    | none =>
      rw [hm] at hp
      cases hp
    | some x =>
      rw [hm] at hp
      exact ⟨p, hm.trans (congrArg some (WithBot.coe_injective hp))⟩

theorem ofLookup_grade_eq_iff {m : P → Option (Alpha F)} {h : {t | ∃ p, m p = some t}.Finite}
    {p : P} {t : Alpha F} : (ofLookup m h).grade p = t ↔ m p = some t := by
  change (m p).elim ⊥ WithBot.some = (t : WithBot (Alpha F)) ↔ _
  cases m p with
  | none => simp
  | some x => simp [WithBot.coe_inj]

theorem mem_cut_ofLookup_iff {m : P → Option (Alpha F)} {h : {t | ∃ p, m p = some t}.Finite} {p : P}
    {t : Alpha F} : p ∈ (ofLookup m h).cut t ↔ ∃ x, m p = some x ∧ t ≤ x := by
  rw [FuzzySet.mem_cut_iff, WithBot.coe_le_iff]
  exact exists_congr fun x => and_congr_left' ofLookup_grade_eq_iff

theorem elim_bot_injective :
    Function.Injective fun m : Option (Alpha F) => m.elim (⊥ : WithBot (Alpha F)) WithBot.some := by
  intro m k h
  cases m <;> cases k <;> simp_all

/-- A fuzzy set whose cuts at the memberships that occur are geometries of one SRID is the meaning
of a region with that SRID. -/
theorem exists_fromLevels_of_cuts {e : PointSetEngine G P} {s : Int32} (A : FuzzySet (Alpha F) P)
    (hne : A.values.Nonempty)
    (hcut : ∀ t ∈ A.values, ∃ g, e.srid g = s ∧ e.points g = A.cut t) :
    ∃ raw v, fromLevels raw (e.engine E) = .ok v ∧ v.srid = some s ∧
      v.meaning e.toRegularizedEngine = A := by
  choose geometry hsrid hpoints using hcut
  -- one level for every membership, from the highest to the lowest
  have hmem : ∀ t ∈ A.finite.toFinset.sort (· ≥ ·), t ∈ A.values := fun t ht =>
    A.finite.mem_toFinset.mp ((Finset.mem_sort _).mp ht)
  obtain ⟨raw, hraw⟩ : ∃ raw : List (Level F G), e.stack raw = A.stack ∧
      ∀ l ∈ raw, e.srid l.geometry = s := by
    refine ⟨(A.finite.toFinset.sort (· ≥ ·)).attach.map fun t =>
      ⟨t.1, geometry t.1 (hmem t.1 t.2)⟩, ?_, ?_⟩
    · rw [RegularizedEngine.stack, FuzzySet.stack, List.map_map, List.map_attach_eq_pmap,
        ← List.pmap_eq_map (p := fun t => t ∈ A.values) hmem]
      exact List.pmap_congr_left _ fun t _ _ _ => Prod.ext rfl (hpoints t _)
    · intro l hl
      obtain ⟨t, -, rfl⟩ := List.mem_map.mp hl
      exact hsrid _ _
  obtain ⟨hstack, hsame⟩ := hraw
  -- normalizing the geometries keeps their points, so the levels are canonical up to it
  have hnormalized : e.stack (raw.map e.normalizeLevel) = A.stack := by
    rw [stack_map_normalizeLevel, ← hstack]
    exact List.map_congr_left fun l _ => by rw [e.points_normalize]
  have hrawNe : raw ≠ [] := by
    rintro rfl
    obtain ⟨t, ht⟩ := hne
    have hlevel : (t, A.cut t) ∈ A.stack := FuzzySet.mem_stack_iff.mpr ⟨ht, rfl⟩
    rw [← hstack] at hlevel
    cases hlevel
  obtain ⟨v, hv, hvsrid, hgrade⟩ := canonicalize_of_isStack (E := E) hrawNe
    (hnormalized ▸ (FuzzySet.isStrictStack_stack A).isStack)
    (fun l hl => by
      have hlevel : (l.alpha, e.points l.geometry) ∈ A.stack :=
        hstack ▸ List.mem_map_of_mem hl
      rw [e.points_normalize]
      exact (FuzzySet.isStrictStack_stack A).nonempty _ hlevel)
    hsame
  refine ⟨raw, v, hv, hvsrid, ?_⟩
  rw [← FuzzySet.ofStack_stack A, ← hnormalized]
  exact FuzzySet.ext (funext hgrade)

/-- The memberships that the lookup of a region takes, and the geometries of its cuts. -/
theorem cuts_of_lookup {e : PointSetEngine G P} {s : Int32} {m : P → Option (Alpha F)}
    {raw : List (Level F G)} {v : Fuzzyregion F G} (hrun : fromLevels raw (e.engine E) = .ok v)
    (hsrid : v.srid = some s) (hlookup : ∀ p, v.membershipAt (e.engine E) p = .ok (m p)) :
    (∃ p, m p ≠ none) ∧ {t | ∃ p, m p = some t}.Finite ∧
      ∀ t, (∃ p, m p = some t) →
        ∃ g, e.srid g = s ∧ e.points g = {p | ∃ x, m p = some x ∧ t ≤ x} := by
  have hv := canonicalize_canonical hrun
  have hiff : ∀ p t, m p = some t ↔ (v.meaning e.toRegularizedEngine).grade p = t := by
    intro p t
    rw [meaning_grade, ← hv.membershipAt_eq_some_iff, hlookup p, Except.ok.injEq]
  have hvalues : {t | ∃ p, m p = some t} = (v.meaning e.toRegularizedEngine).values :=
    Set.ext fun t => exists_congr fun p => hiff p t
  refine ⟨?_, hvalues ▸ (v.meaning e.toRegularizedEngine).finite, ?_⟩
  · -- a region with an SRID has a level, whose alpha occurs
    have hne : v.levels ≠ [] := fun hnil =>
      Option.some_ne_none s (hsrid.symm.trans (srid_of_canonicalize_nil hrun hnil))
    obtain ⟨l, hl⟩ := List.exists_mem_of_ne_nil _ hne
    obtain ⟨p, hp⟩ := hvalues.superset (hv.mem_values_iff.mpr (List.mem_map_of_mem hl))
    exact ⟨p, hp ▸ Option.some_ne_none _⟩
  · -- the geometry of a level covers the cut at its alpha
    intro t ht
    obtain ⟨l, hl, rfl⟩ := List.mem_map.mp (hv.mem_values_iff.mp (hvalues.subset ht))
    obtain ⟨s', hs', hls⟩ := hv.sameSrid l hl
    refine ⟨l.geometry, ?_, ?_⟩
    · rw [Option.some.inj (hsrid.symm.trans hs')]
      exact Except.ok.inj hls
    · rw [hv.points_eq_cut hl]
      ext p
      rw [FuzzySet.mem_cut_iff, WithBot.coe_le_iff, Set.mem_ofPred_eq]
      exact exists_congr fun x => and_congr_left' (hiff p x).symm

/-- A region is looked up as its meaning grades. -/
theorem membershipAt_of_meaning_eq {e : PointSetEngine G P} {v : Fuzzyregion F G}
    (hv : Canonical (e.engine E) v) {m : P → Option (Alpha F)} {h : {t | ∃ p, m p = some t}.Finite}
    (hmeaning : v.meaning e.toRegularizedEngine = ofLookup m h) (p : P) :
    v.membershipAt (e.engine E) p = .ok (m p) := by
  obtain ⟨k, hk, hgrade⟩ := hv.membershipAt_eq p
  rw [← meaning_grade, hmeaning] at hgrade
  change (m p).elim ⊥ WithBot.some = k.elim ⊥ WithBot.some at hgrade
  rw [hk, elim_bot_injective hgrade]

end Fuzzyregion

end FuzzyRegion
