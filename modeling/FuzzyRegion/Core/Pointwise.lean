import FuzzyRegion.Core.Powers
import FuzzyRegion.Core.SetLaws

/-!
# Pointwise transforms

A remap skips canonicalization, so that a map which increases on the memberships in use acts on a
canonical region level by level: it renames the alphas and keeps everything that is decided by their
order. The lookup, the cuts and the runs of union and intersection only look at that order. The
difference does not, because it takes complements.

## Main definitions

* `Level.rename f`, `Fuzzyregion.rename f`: the alphas mapped by `f`, the geometries as they are
* `Commutes`: a remap before and after a set operation gives the same region

## Main results

* `membershipAt_rename`, `alphaCut_rename`: what a renaming does to the lookup and to the cuts
* `canonicalize_rename`, `SetOp.run_rename`: the runs on renamed levels
* `remap_pointwise`: an increasing remap acts pointwise and commutes with union and intersection
* `exists_normalizeMembership_eq`, `exists_powerTransform_eq`: the transforms are such remaps where
  arithmetic is exact
-/

namespace FuzzyRegion

open Fallible Fuzzyregion

section

variable {F G : Type} [Scalar F]

/-- The level with its alpha mapped. -/
def Level.rename (f : Alpha F → Alpha F) (l : Level F G) : Level F G := ⟨f l.alpha, l.geometry⟩

/-- The region with its alphas mapped. -/
def Fuzzyregion.rename (f : Alpha F → Alpha F) (v : Fuzzyregion F G) : Fuzzyregion F G :=
  ⟨v.srid, v.levels.map (Level.rename f)⟩

@[simp] theorem Level.rename_alpha (f : Alpha F → Alpha F) (l : Level F G) :
    (l.rename f).alpha = f l.alpha := rfl

@[simp] theorem Level.rename_geometry (f : Alpha F → Alpha F) (l : Level F G) :
    (l.rename f).geometry = l.geometry := rfl

/-- A remap whose images are alphas renames the levels. -/
theorem Fuzzyregion.remapMembershipValues_eq_rename {ε : Type} {remap : Alpha F → F}
    {f : Alpha F → Alpha F} {v : Fuzzyregion F G}
    (h : ∀ l ∈ v.levels, (f l.alpha).value = remap l.alpha) :
    v.remapMembershipValues remap = (.ok (v.rename f) : Outcome ε (Fuzzyregion F G)) := by
  refine remapMembershipValues_eq_ok_iff.mpr ⟨rfl, ?_⟩
  rw [Fuzzyregion.rename, List.forall₂_map_right_iff, List.forall₂_same]
  exact fun l hl => ⟨h l hl, rfl⟩

theorem Fuzzyregion.remapped_rename (f : Alpha F → Alpha F) (v : Fuzzyregion F G) :
    Remapped v (v.rename f) := by
  refine ⟨rfl, ?_⟩
  rw [Fuzzyregion.rename, List.map_map]
  rfl

end

variable {F G P E : Type} [LawfulScalar F] {engine : GeometryEngine G P E} {m : Alpha F}
  {f : Alpha F → Alpha F} {v a b : Fuzzyregion F G}

namespace Fuzzyregion

/-! ## Lookup and cuts -/

/-- The lookup asks for the geometries only, and returns the image of what it finds. -/
theorem membershipAt_rename (f : Alpha F → Alpha F) (v : Fuzzyregion F G) (p : P) :
    (v.rename f).membershipAt engine p = Option.map f <$> v.membershipAt engine p := by
  unfold membershipAt rename
  induction v.levels with
  | nil => rfl
  | cons l levels ih =>
    rw [List.map_cons, membershipIn, membershipIn, ih, Level.rename_geometry]
    cases engine.containsPoint l.geometry p with
    | error e => rfl
    | ok covers => cases covers <;> rfl

/-- An increasing map keeps which levels reach an alpha. -/
theorem le_rename_iff (hf : StrictMonoOn f (Set.Iic m)) (hle : ∀ l ∈ v.levels, l.alpha ≤ m)
    {t : Alpha F} (ht : t ≤ m) {l : Level F G} (hl : l ∈ v.levels) :
    (f t).toRat ≤ (l.rename f).alpha.toRat ↔ t.toRat ≤ l.alpha.toRat :=
  hf.le_iff_le ht (hle l hl)

theorem alphaCut_rename (hf : StrictMonoOn f (Set.Iic m)) (hle : ∀ l ∈ v.levels, l.alpha ≤ m)
    {t : Alpha F} (ht : t ≤ m) :
    (v.rename f).alphaCut (.ofAlpha (f t)) = v.alphaCut (.ofAlpha t) := by
  rw [alphaCut_eq, alphaCut_eq, rename, ← List.map_reverse, List.find?_map, Option.map_map]
  have hfind : v.levels.reverse.find? ((fun l => decide ((AlphaThreshold.ofAlpha (f t)).toRat ≤
      l.alpha.toRat)) ∘ Level.rename f) =
      v.levels.reverse.find? fun l => decide ((AlphaThreshold.ofAlpha t).toRat ≤ l.alpha.toRat) := by
    rw [← List.head?_filter, ← List.head?_filter]
    refine congrArg List.head? (List.filter_congr fun l hl => ?_)
    exact decide_eq_decide.mpr (le_rename_iff hf hle ht (List.mem_reverse.mp hl))
  rw [hfind]
  rfl

/-! ## The canonical form -/

theorem pairwise_rename {levels : List (Level F G)} (hf : StrictMonoOn f (Set.Iic m))
    (hle : ∀ l ∈ levels, l.alpha ≤ m)
    (h : levels.Pairwise fun higher lower => lower.alpha < higher.alpha) :
    (levels.map (Level.rename f)).Pairwise fun higher lower => lower.alpha < higher.alpha := by
  rw [List.pairwise_map]
  refine List.Pairwise.imp_of_mem ?_ h
  exact fun hh hl hlt => hf (hle _ hl) (hle _ hh) hlt

theorem Canonical.rename (hv : Canonical engine v) (hf : StrictMonoOn f (Set.Iic m))
    (hle : ∀ l ∈ v.levels, l.alpha ≤ m) : Canonical engine (v.rename f) :=
  ((remapped_rename f v).canonical_iff hv).mpr (pairwise_rename hf hle hv.descending)

/-- A step of the collapse compares geometries only. -/
theorem collapseLevels_rename (f : Alpha F → Alpha F) (levels : List (Level F G)) :
    collapseLevels engine (levels.map (Level.rename f)) =
      List.map (Level.rename f) <$> collapseLevels engine levels := by
  have hstep : ∀ (collapsed : List (Level F G)) (level : Level F G),
      collapseStep engine (collapsed.map (Level.rename f)) (level.rename f) =
        List.map (Level.rename f) <$> collapseStep engine collapsed level := by
    intro collapsed level
    rw [collapseStep, collapseStep, List.getLast?_map]
    cases collapsed.getLast? with
    | none =>
      refine congrArg Except.ok ?_
      simp
    | some previous =>
      rw [Option.map_some]
      dsimp only [Level.rename_geometry]
      cases engine.topologicallyEquals previous.geometry level.geometry with
      | error e => rfl
      | ok drop =>
        cases drop with
        | false =>
          refine congrArg Except.ok ?_
          simp
        | true => rfl
  exact foldlM_map hstep levels []

/-- Canonicalizing renamed levels renames the result, where the map keeps their order. -/
theorem canonicalize_rename {raw : List (Level F G)} {r : Fuzzyregion F G}
    (hdesc : raw.Pairwise fun higher lower => lower.alpha < higher.alpha)
    (hrenamed : (raw.map (Level.rename f)).Pairwise
      fun higher lower => lower.alpha < higher.alpha)
    (h : canonicalize ⟨raw⟩ engine = .ok r) :
    canonicalize ⟨raw.map (Level.rename f)⟩ engine = .ok (r.rename f) := by
  obtain ⟨levels, hnorm, hrun⟩ := canonicalize_eq_ok_iff.mp h
  have hforall := normalizeLevels_eq_ok_iff.mp hnorm
  -- normalization keeps the alphas, so both lists are sorted already
  have hsorted : levels.Pairwise fun higher lower => lower.alpha < higher.alpha :=
    pairwise_of_normalizeLevels (fun x y => y < x) hnorm hdesc
  have hsorted' : (levels.map (Level.rename f)).Pairwise
      fun higher lower => lower.alpha < higher.alpha := by
    rw [List.pairwise_map] at hrenamed ⊢
    exact pairwise_of_normalizeLevels (fun x y => f y < f x) hnorm hrenamed
  rw [sortLevels_eq_self hsorted] at hrun
  refine canonicalize_eq_ok_iff.mpr ⟨levels.map (Level.rename f), ?_, ?_⟩
  · rw [normalizeLevels_eq_ok_iff, List.forall₂_map_left_iff, List.forall₂_map_right_iff]
    exact hforall.imp fun _ _ hl => ⟨congrArg f hl.1, hl.2⟩
  · rw [sortLevels_eq_self hsorted']
    rcases hrun with ⟨rfl, rfl⟩ | ⟨first, rest, s, collapsed, rfl, -, hs, hsrids, hcollapse, hnest,
      rfl⟩
    · exact Or.inl ⟨rfl, rfl⟩
    · refine Or.inr ⟨first.rename f, rest.map (Level.rename f), s, collapsed.map (Level.rename f),
        rfl, ?_, hs, ?_, ?_, ?_, rfl⟩
      · exact checkDuplicateAlphas_eq_ok_iff.mpr (hsorted'.isChain.imp fun _ _ hlt => hlt.ne')
      · rw [checkSrids_eq_ok_iff] at hsrids ⊢
        exact List.forall_mem_map.mpr hsrids
      · exact (collapseLevels_rename f _).trans (congrArg _ hcollapse)
      · rw [checkNesting_eq_ok_iff] at hnest ⊢
        exact (List.isChain_map (Level.rename f)).mpr hnest

/-! ## Set operations -/

theorem le_of_mem_alphaDomain (ha : ∀ l ∈ a.levels, l.alpha ≤ m) (hb : ∀ l ∈ b.levels, l.alpha ≤ m)
    {t : Alpha F} (ht : t ∈ a.alphaDomain b) : t ≤ m := by
  rcases mem_alphaDomain_iff.mp ht with ⟨l, hl, rfl⟩ | ⟨l, hl, rfl⟩
  · exact ha l hl
  · exact hb l hl

/-- The common domain of renamed operands is the renamed domain. -/
theorem alphaDomain_rename (hf : StrictMonoOn f (Set.Iic m)) (ha : ∀ l ∈ a.levels, l.alpha ≤ m)
    (hb : ∀ l ∈ b.levels, l.alpha ≤ m) :
    (a.rename f).alphaDomain (b.rename f) = (a.alphaDomain b).map f := by
  have hle : ∀ t ∈ a.alphaDomain b, t ≤ m := fun t ht => le_of_mem_alphaDomain ha hb ht
  have hdesc : ((a.alphaDomain b).map f).Pairwise fun t t' => t' < t := by
    rw [List.pairwise_map]
    refine List.Pairwise.imp_of_mem ?_ (pairwise_alphaDomain a b)
    exact fun ht ht' hlt => hf (hle _ ht') (hle _ ht) hlt
  -- both lists descend and have the same elements
  have hmem : ∀ t, t ∈ (a.rename f).alphaDomain (b.rename f) ↔ t ∈ (a.alphaDomain b).map f := by
    intro t
    rw [List.mem_map, mem_alphaDomain_iff]
    constructor
    · rintro (⟨l, hl, rfl⟩ | ⟨l, hl, rfl⟩)
      · obtain ⟨k, hk, rfl⟩ := List.mem_map.mp hl
        exact ⟨k.alpha, mem_alphaDomain_iff.mpr (Or.inl ⟨k, hk, rfl⟩), rfl⟩
      · obtain ⟨k, hk, rfl⟩ := List.mem_map.mp hl
        exact ⟨k.alpha, mem_alphaDomain_iff.mpr (Or.inr ⟨k, hk, rfl⟩), rfl⟩
    · rintro ⟨u, hu, rfl⟩
      rcases mem_alphaDomain_iff.mp hu with ⟨l, hl, rfl⟩ | ⟨l, hl, rfl⟩
      · exact Or.inl ⟨l.rename f, List.mem_map_of_mem hl, rfl⟩
      · exact Or.inr ⟨l.rename f, List.mem_map_of_mem hl, rfl⟩
  have hsorted := pairwise_alphaDomain (a.rename f) (b.rename f)
  have hperm := (List.perm_ext_iff_of_nodup (hsorted.imp fun hlt => hlt.ne')
    (hdesc.imp fun hlt => hlt.ne')).mpr hmem
  exact hperm.eq_of_pairwise (fun _ _ _ _ h h' => (h.asymm h').elim) hsorted hdesc

end Fuzzyregion

namespace SetOp

theorem cut_rename {op : SetOp} (hop : op ≠ .difference) (c : CrispEngine G P)
    (hf : StrictMonoOn f (Set.Iic m)) (ha : ∀ l ∈ a.levels, l.alpha ≤ m)
    (hb : ∀ l ∈ b.levels, l.alpha ≤ m) {t : Alpha F} (ht : t ≤ m) :
    op.cut c (a.rename f) (b.rename f) (f t) = op.cut c a b t := by
  rw [cut, cut, alphaCut_rename hf ha ht]
  cases op with
  | union => exact congrArg _ (alphaCut_rename hf hb ht)
  | intersection => exact congrArg _ (alphaCut_rename hf hb ht)
  | difference => exact absurd rfl hop

/-- The levels that the alphas of the renamed domain contribute are the renamed ones. -/
theorem keptLevels_rename {c : CrispEngine G P} {cut cut' : Alpha F → Option G}
    {domain : List (Alpha F)} (h : ∀ t ∈ domain, cut' (f t) = cut t) :
    (domain.map f).filterMap (keptLevel c cut') =
      (domain.filterMap (keptLevel c cut)).map (Level.rename f) := by
  rw [List.filterMap_map, List.map_filterMap]
  refine List.filterMap_congr fun t ht => ?_
  rw [Function.comp_apply, keptLevel, keptLevel, h t ht]
  cases cut t with
  | none => rfl
  | some g =>
    rw [Option.bind_some, Option.bind_some]
    split_ifs <;> rfl

/-- The alphas of the kept levels are some of the domain. -/
theorem map_alpha_keptLevels_sublist (c : CrispEngine G P) (cut : Alpha F → Option G)
    (domain : List (Alpha F)) :
    ((domain.filterMap (keptLevel c cut)).map Level.alpha).Sublist domain := by
  induction domain with
  | nil => exact List.Sublist.refl _
  | cons t domain ih =>
    cases hkept : keptLevel c cut t with
    | none =>
      rw [List.filterMap_cons_none hkept]
      exact ih.cons t
    | some l =>
      obtain ⟨g, -, hl⟩ := Option.bind_eq_some_iff.mp hkept
      obtain rfl : l.alpha = t := by
        split_ifs at hl
        exact congrArg Level.alpha (Option.some.inj hl).symm
      rw [List.filterMap_cons_some hkept, List.map_cons]
      exact ih.cons_cons l.alpha

/-- **Union and intersection run on renamed operands as on the original ones.** -/
theorem run_rename {op : SetOp} (hop : op ≠ .difference) {c : CrispEngine G P}
    (hf : StrictMonoOn f (Set.Iic m)) (ha : ∀ l ∈ a.levels, l.alpha ≤ m)
    (hb : ∀ l ∈ b.levels, l.alpha ≤ m) (hcompat : Compatible a b) {r : Fuzzyregion F G}
    (h : op.run a b (c.engine E) = .ok r) :
    op.run (a.rename f) (b.rename f) (c.engine E) = .ok (r.rename f) := by
  have hle : ∀ t ∈ a.alphaDomain b, t ≤ m := fun t ht => le_of_mem_alphaDomain ha hb ht
  have hcompat' : Compatible (a.rename f) (b.rename f) := hcompat
  rw [run_eq, setOperation_engine (fun _ => rfl) (ensureCompatibleSrid_eq_ok hcompat)] at h
  rw [run_eq, setOperation_engine (fun _ => rfl) (ensureCompatibleSrid_eq_ok hcompat'),
    alphaDomain_rename hf ha hb,
    keptLevels_rename fun t ht => cut_rename hop c hf ha hb (hle t ht)]
  have hsub := map_alpha_keptLevels_sublist c (op.cut c a b) (a.alphaDomain b)
  have hdesc := List.pairwise_map.mp ((pairwise_alphaDomain a b).sublist hsub)
  have hkept : ∀ l ∈ (a.alphaDomain b).filterMap (keptLevel c (op.cut c a b)), l.alpha ≤ m :=
    fun l hl => hle l.alpha (hsub.subset (List.mem_map_of_mem hl))
  have hrenamed := pairwise_rename hf hkept hdesc
  generalize (a.alphaDomain b).filterMap (keptLevel c (op.cut c a b)) = levels at *
  cases levels with
  | nil =>
    obtain rfl : empty (a.srid.or b.srid) = r := Except.ok.inj h
    rfl
  | cons first rest =>
    have hrun : canonicalize ⟨first :: rest⟩ (c.engine E) = .ok r := mapError_eq_ok_iff.mp h
    exact congrArg liftCore (canonicalize_rename hdesc hrenamed hrun)

end SetOp

/-- A remap before and after a set operation gives the same region. -/
def Commutes (engine : GeometryEngine G P E) (remap : Alpha F → F) (op : SetOp)
    (a b : Fuzzyregion F G) : Prop :=
  ∃ a' b' r r', a.remapMembershipValues remap = (.ok a' : Outcome E _) ∧
    b.remapMembershipValues remap = (.ok b' : Outcome E _) ∧ op.run a b engine = .ok r ∧
    r.remapMembershipValues remap = (.ok r' : Outcome E _) ∧ op.run a' b' engine = .ok r'

/-- **An increasing remap acts pointwise on memberships**: it keeps the canonical form and the SRID,
the lookup returns the image of what it returned, the cut at the image of an alpha is the cut at
that alpha, and the remap commutes with union and intersection. -/
theorem remap_pointwise {ε : Type} (e : RegularizedEngine G P) (hf : StrictMonoOn f (Set.Iic m))
    (ha : Canonical (e.engine E) a) (hle : ∀ l ∈ a.levels, l.alpha ≤ m) :
    ∃ r, a.remapMembershipValues (fun t => (f t).value) = (.ok r : Outcome ε _) ∧
      Canonical (e.engine E) r ∧ r.srid = a.srid ∧
      (∀ p, ∃ k, a.membershipAt (e.engine E) p = .ok k ∧
        r.membershipAt (e.engine E) p = .ok (k.map f)) ∧
      (∀ t ≤ m, r.alphaCut (.ofAlpha (f t)) = a.alphaCut (.ofAlpha t)) ∧
      ∀ b, Canonical (e.engine E) b → (∀ l ∈ b.levels, l.alpha ≤ m) → Compatible a b →
        Commutes (e.engine E) (fun t => (f t).value) .union a b ∧
        Commutes (e.engine E) (fun t => (f t).value) .intersection a b := by
  have hrename : ∀ {ε' : Type} (v : Fuzzyregion F G),
      v.remapMembershipValues (fun t => (f t).value) = (.ok (v.rename f) : Outcome ε' _) :=
    fun v => remapMembershipValues_eq_rename fun _ _ => rfl
  refine ⟨a.rename f, hrename a, ha.rename hf hle, rfl, fun p => ?_, fun t ht => ?_,
    fun b hb hleb hcompat => ?_⟩
  · obtain ⟨k, hk, -⟩ := ha.membershipAt_eq p
    refine ⟨k, hk, ?_⟩
    rw [membershipAt_rename, hk]
    rfl
  · exact alphaCut_rename hf hle ht
  · have hcommutes : ∀ op : SetOp, op ≠ .difference →
        Commutes (e.engine E) (fun t => (f t).value) op a b := by
      intro op hop
      obtain ⟨r, hr, -⟩ := op.run_eq_ok ha hb hcompat
      exact ⟨_, _, r, _, hrename a, hrename b, hr, hrename r,
        SetOp.run_rename hop hf hle hleb hcompat hr⟩
    exact ⟨hcommutes .union (by simp), hcommutes .intersection (by simp)⟩

theorem half_mem (a : Alpha ℚ) : 0 < a.toRat / 2 ∧ a.toRat / 2 ≤ 1 :=
  ⟨half_pos a.toRat_pos, (half_le_self a.toRat_pos.le).trans a.toRat_le_one⟩

/-- Half the membership. -/
def halve (a : Alpha ℚ) : Alpha ℚ := exactAlpha (a.toRat / 2) (half_mem a)

theorem remap_pointwise_hill :
    (∃ r, hill.remapMembershipValues (fun t => (halve t).value) = (.ok r : Outcome Empty _) ∧
      Canonical (mockEngine.engine Empty) r) ∧
    Commutes (mockEngine.engine Empty) (fun t => (halve t).value) .union hill plateau := by
  have hhalve : StrictMonoOn halve (Set.Iic Alpha.one) := by
    intro a _ b _ hlt
    show a.toRat / 2 < b.toRat / 2
    exact div_lt_div_of_pos_right hlt two_pos
  obtain ⟨r, hr, hcanonical, -, -, -, hcommutes⟩ :=
    remap_pointwise (ε := Empty) mockEngine.toRegularizedEngine hhalve canonical_hill
      fun l _ => l.alpha.toRat_le_one
  exact ⟨⟨r, hr, hcanonical⟩, (hcommutes plateau canonical_plateau
    (fun l _ => l.alpha.toRat_le_one) compatible_hill_plateau).1⟩

/-! ## The transforms in exact arithmetic -/

/-- Normalization divides by the maximum, which increases on the memberships up to the maximum. -/
theorem exists_normalizeMembership_eq {ε : Type} {engine : GeometryEngine G P E}
    {v : Fuzzyregion ℚ G} (hv : Canonical engine v) {max : Alpha ℚ} (hmax : v.maxAlpha = some max) :
    ∃ f : Alpha ℚ → Alpha ℚ, StrictMonoOn f (Set.Iic max) ∧
      v.normalizeMembership = (.ok (v.rename f) : Outcome ε _) := by
  have hquotient : ∀ a : Alpha ℚ, ∃ b : Alpha ℚ, a ≤ max → b.value = a.toRat / max.toRat := by
    intro a
    by_cases hle : a ≤ max
    · exact ⟨exactAlpha (a.toRat / max.toRat) ⟨div_pos a.toRat_pos max.toRat_pos,
        (div_le_one max.toRat_pos).mpr hle⟩, fun _ => rfl⟩
    · exact ⟨a, fun h => absurd h hle⟩
  choose f hf using hquotient
  have hle := hv.le_maxAlpha hmax
  refine ⟨f, fun a ha b hb hlt => ?_, ?_⟩
  · show (f a).value < (f b).value
    rw [hf a ha, hf b hb]
    exact div_lt_div_of_pos_right (Alpha.lt_def.mp hlt) max.toRat_pos
  · rw [normalizeMembership, hmax]
    dsimp only
    split_ifs with hone
    · -- a maximum of one divides nothing
      have hsame : ∀ l ∈ v.levels, l.rename f = l := by
        intro l hl
        have hvalue : (f l.alpha).value = l.alpha.value := by
          rw [hf l.alpha (hle l hl), max.toRat_le_one.antisymm (Alpha.isOne_iff.mp hone), div_one]
          rfl
        rw [Level.rename, Alpha.ext_value hvalue]
      rw [Fuzzyregion.rename, List.map_congr_left hsame, List.map_id']
      rfl
    · exact remapMembershipValues_eq_rename fun l hl => hf l.alpha (hle l hl)

/-- A power transform renames where the powers of alphas are alphas and increase. -/
theorem exists_powerTransform_eq (t : PowerTransform) {powf : F → F → F} {power : F}
    (hpower : validateMembershipPower power = .ok ())
    (halpha : ∀ a : Alpha F, ∃ b : Alpha F, b.value = powf a.value (t.exponent power))
    (hmono : ∀ a b : Alpha F, a < b → LawfulScalar.toRat (powf a.value (t.exponent power)) <
      LawfulScalar.toRat (powf b.value (t.exponent power))) :
    ∃ f : Alpha F → Alpha F, StrictMonoOn f (Set.Iic Alpha.one) ∧
      ∀ v : Fuzzyregion F G, t.run powf v power = .ok (v.rename f) := by
  choose f hf using halpha
  refine ⟨f, fun a _ b _ hlt => ?_, fun v => ?_⟩
  · have hlt' := hmono a b hlt
    rwa [← hf a, ← hf b] at hlt'
  · rw [t.run_eq, hpower]
    exact remapMembershipValues_eq_rename fun l _ => hf l.alpha

end FuzzyRegion
