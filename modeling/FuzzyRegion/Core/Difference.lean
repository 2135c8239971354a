import FuzzyRegion.Core.Meaning
import FuzzyRegion.Core.SetLaws
import Mathlib.Data.List.Find

/-!
# The exclusion thresholds of the difference

At an alpha `t` the difference removes what its right operand holds above the complement of `t`.
Whatever threshold stands for the complement, as long as it falls with growing alpha, the result at
a point is the greatest sampled alpha that the left operand reaches and whose threshold the right
operand does not exceed. With exact complements this rounds the standard difference down to the
sampled alphas. With rounded complements a membership above the exact complement may survive, when
it is the datum the complement rounds to.

## Main definitions

* `Fuzzyregion.differenceAbove`: the difference with given exclusion thresholds
* `Fuzzyregion.exactDifference`: the difference with exact complements

## Main results

* `difference_eq`: the difference of the source has the complements as its thresholds
* `differenceAbove_eq_ok`: the grades of a difference with falling thresholds
* `difference_rounds_down`: over exact alphas, every cut and every membership of the difference
* `difference_eq_exact_iff`: over binary64 alphas, when rounding the complement is harmless
-/

namespace FuzzyRegion

open Fallible LevelStack Fuzzyregion Numeric

variable {F G P E : Type} [LawfulScalar F]

namespace Fuzzyregion

/-- The lowest stored level whose alpha is strictly above a number. -/
def strictCutAbove (self : Fuzzyregion F G) (threshold : ℚ) : Option G :=
  (self.levels.reverse.find? fun level => decide (threshold < level.alpha.toRat)).map
    Level.geometry

/-- The difference that removes at each alpha what `other` holds above a given threshold. -/
def differenceAbove (self other : Fuzzyregion F G) (engine : GeometryEngine G P E)
    (threshold : Alpha F → ℚ) : Outcome (CoreError F E) (Fuzzyregion F G) :=
  self.setOperation other engine fun alpha =>
    match self.alphaCut (.ofAlpha alpha), other.strictCutAbove (threshold alpha) with
    | some left, some right =>
      liftCore (some <$> (engine.difference left right).mapError .geometry)
    | some left, none => return some left
    | none, _ => return none

/-- The difference with `1 - alpha` computed exactly. -/
def exactDifference (self other : Fuzzyregion F G) (engine : GeometryEngine G P E) :
    Outcome (CoreError F E) (Fuzzyregion F G) :=
  self.differenceAbove other engine fun alpha => 1 - alpha.toRat

/-- The source computes the threshold with the subtraction of the scalars. -/
theorem difference_eq (a b : Fuzzyregion F G) (engine : GeometryEngine G P E) :
    a.difference b engine =
      a.differenceAbove b engine fun t => (AlphaThreshold.complement t).toRat := by
  unfold difference differenceAbove
  refine congrArg (a.setOperation b engine) (funext fun t => ?_)
  -- the range check of `1 - alpha` never fails
  simp only [AlphaThreshold.tryFrom_complement, expect, ok_bind, strictAlphaCut_eq]
  rfl

/-- Over exact alphas the source computes exact complements. -/
theorem difference_eq_exactDifference (a b : Fuzzyregion ℚ G) (engine : GeometryEngine G P E) :
    a.difference b engine = a.exactDifference b engine := difference_eq a b engine

/-- Thresholds that exclude the same stored alphas of `other` give the same difference. -/
theorem differenceAbove_congr {a b : Fuzzyregion F G} {threshold threshold' : Alpha F → ℚ}
    (h : ∀ t ∈ a.alphaDomain b, ∀ l ∈ b.levels,
      (threshold t < l.alpha.toRat ↔ threshold' t < l.alpha.toRat))
    (engine : GeometryEngine G P E) :
    a.differenceAbove b engine threshold = a.differenceAbove b engine threshold' := by
  have hcut : ∀ t ∈ a.alphaDomain b,
      b.strictCutAbove (threshold t) = b.strictCutAbove (threshold' t) := by
    intro t ht
    refine congrArg (Option.map Level.geometry) (List.find?_congr fun l hl => ?_)
    exact decide_eq_decide.mpr (h t ht l (List.mem_reverse.mp hl))
  exact setOperation_congr fun t ht => by rw [hcut t ht]

/-! ## Falling thresholds -/

section

variable {e : RegularizedEngine G P} {a b : Fuzzyregion F G}

theorem Canonical.mem_strictCutAbove_iff (ha : Canonical (e.engine E) a) {q : ℚ} (hq : 0 ≤ q)
    (p : P) :
    p ∈ e.covered (a.strictCutAbove q) ↔ q < degree (grade (e.stack a.levels) p) := by
  have hmono : ∀ {x y : Alpha F}, x ≤ y → q < x.toRat → q < y.toRat := fun hxy hx =>
    hx.trans_le hxy
  rw [strictCutAbove, mem_covered_lowest_iff ha.isStrictStack.isStack
    fun x => decide (q < x.toRat)]
  simp only [decide_eq_true_eq]
  rw [exists_covering_iff hmono]
  cases grade (e.stack a.levels) p with
  | bot => simp [hq]
  | coe x => simp

theorem differenceAbove_engine (c : CrispEngine G P) (a b : Fuzzyregion F G)
    (threshold : Alpha F → ℚ) :
    a.differenceAbove b (c.engine E) threshold = a.setOperation b (c.engine E) fun t =>
      .ok (SetOp.difference.combine c (a.alphaCut (.ofAlpha t))
        (b.strictCutAbove (threshold t))) := by
  unfold differenceAbove
  refine congrArg (a.setOperation b (c.engine E)) (funext fun t => ?_)
  cases a.alphaCut (.ofAlpha t) <;> cases b.strictCutAbove (threshold t) <;> rfl

theorem mem_covered_differenceCut_iff (ha : Canonical (e.engine E) a)
    (hb : Canonical (e.engine E) b) (hcompat : Compatible a b) {t : Alpha F} {q : ℚ} (hq : 0 ≤ q)
    (p : P) :
    p ∈ e.covered (SetOp.difference.combine e.toCrispEngine (a.alphaCut (.ofAlpha t))
        (b.strictCutAbove q)) ↔
      t.toRat ≤ degree (grade (e.stack a.levels) p) ∧
        degree (grade (e.stack b.levels) p) ≤ q := by
  have hsrid : ∀ g h, a.alphaCut (.ofAlpha t) = some g → b.strictCutAbove q = some h →
      e.srid g = e.srid h := fun _ _ hg hh =>
    hcompat _ _ (ha.srid_alphaCut hg) (hb.srid_lowest hh)
  rw [SetOp.difference.covered_combine hsrid, SetOp.onSets, Set.mem_sdiff,
    ha.mem_alphaCut_ofAlpha_iff, hb.mem_strictCutAbove_iff hq, not_lt]

/-- The cuts of a difference with falling thresholds. -/
def differenceFamily (ha : Canonical (e.engine E) a) (hb : Canonical (e.engine E) b)
    (hcompat : Compatible a b) {threshold : Alpha F → ℚ} (hnonneg : ∀ t, 0 ≤ threshold t)
    (hanti : Antitone threshold) : CutFamily F e (a.srid.or b.srid) where
  cut t := SetOp.difference.combine e.toCrispEngine (a.alphaCut (.ofAlpha t))
    (b.strictCutAbove (threshold t))
  srid_eq := by
    intro t g hg
    refine SetOp.difference.srid_combine (fun left hl => ?_) (fun right hr => ?_) hg
    · exact or_srid_left (ha.srid_alphaCut hl)
    · exact hcompat.or_srid_right (hb.srid_lowest hr)
  shrinks := by
    intro t t' htt' p hp
    rw [mem_covered_differenceCut_iff ha hb hcompat (hnonneg _)] at hp ⊢
    exact ⟨(Alpha.le_def.mp htt').trans hp.1, hp.2.trans (hanti htt')⟩

end

/-- **The grades of a difference with falling thresholds**: a point keeps the greatest sampled
alpha that `a` reaches and whose threshold `b` does not exceed. -/
theorem differenceAbove_eq_ok {e : PointSetEngine G P} {a b : Fuzzyregion F G}
    (ha : Canonical (e.engine E) a) (hb : Canonical (e.engine E) b) (hcompat : Compatible a b)
    {threshold : Alpha F → ℚ} (hnonneg : ∀ t, 0 ≤ threshold t) (hanti : Antitone threshold) :
    ∃ r, a.differenceAbove b (e.engine E) threshold = .ok r ∧ Canonical (e.engine E) r ∧
      r.srid = a.srid.or b.srid ∧
      ∀ (p : P) (x : Alpha F), (x : WithBot (Alpha F)) ≤ grade (e.stack r.levels) p ↔
        ∃ t ∈ a.alphaDomain b, x ≤ t ∧ t.toRat ≤ degree (grade (e.stack a.levels) p) ∧
          degree (grade (e.stack b.levels) p) ≤ threshold t := by
  rw [differenceAbove_engine]
  obtain ⟨r, hr, hsrid, hgrade⟩ := setOperation_of_family
    (differenceFamily ha hb hcompat hnonneg hanti) (fun _ => rfl)
    (ensureCompatibleSrid_eq_ok hcompat)
  refine ⟨r, hr, setOperation_canonical hr, hsrid, fun p x => (hgrade p x).trans ?_⟩
  refine exists_congr fun t => and_congr_right' (and_congr_right' ?_)
  rw [e.covered_map_normalize]
  exact mem_covered_differenceCut_iff ha hb hcompat (hnonneg t) p

/-- Two differences grade every point alike exactly when no sampled alpha separates their
thresholds at a point. -/
theorem differenceAbove_grade_eq_iff {e : PointSetEngine G P} {a b r s : Fuzzyregion F G}
    {threshold threshold' : Alpha F → ℚ} (hanti : Antitone threshold) (hanti' : Antitone threshold')
    (hr : ∀ (p : P) (x : Alpha F), (x : WithBot (Alpha F)) ≤ grade (e.stack r.levels) p ↔
      ∃ t ∈ a.alphaDomain b, x ≤ t ∧ t.toRat ≤ degree (grade (e.stack a.levels) p) ∧
        degree (grade (e.stack b.levels) p) ≤ threshold t)
    (hs : ∀ (p : P) (x : Alpha F), (x : WithBot (Alpha F)) ≤ grade (e.stack s.levels) p ↔
      ∃ t ∈ a.alphaDomain b, x ≤ t ∧ t.toRat ≤ degree (grade (e.stack a.levels) p) ∧
        degree (grade (e.stack b.levels) p) ≤ threshold' t) (p : P) :
    grade (e.stack r.levels) p = grade (e.stack s.levels) p ↔
      ∀ t ∈ a.alphaDomain b, t.toRat ≤ degree (grade (e.stack a.levels) p) →
        (degree (grade (e.stack b.levels) p) ≤ threshold t ↔
          degree (grade (e.stack b.levels) p) ≤ threshold' t) := by
  constructor
  · intro heq t ht hta
    -- a sample of one side reaches the grade of the other, by a sample that is no lower
    constructor
    · intro hb
      have hreach := (hr p t).mpr ⟨t, ht, le_rfl, hta, hb⟩
      obtain ⟨t', -, htt', -, hb'⟩ := (hs p t).mp (heq ▸ hreach)
      exact hb'.trans (hanti' htt')
    · intro hb
      have hreach := (hs p t).mpr ⟨t, ht, le_rfl, hta, hb⟩
      obtain ⟨t', -, htt', -, hb'⟩ := (hr p t).mp (heq ▸ hreach)
      exact hb'.trans (hanti htt')
  · intro h
    refine eq_of_coe_le_iff fun x => ?_
    rw [hr, hs]
    refine exists_congr fun t => and_congr_right fun ht => and_congr_right' ?_
    exact and_congr_right (h t ht)

/-! ## Exact complements -/

/-- With exact complements a grade of the difference reaches what is sampled up to the standard
difference. -/
theorem exists_difference_grade_iff (e : PointSetEngine G P) {a b : Fuzzyregion ℚ G}
    (ha : Canonical (e.engine E) a) (hb : Canonical (e.engine E) b) (hcompat : Compatible a b) :
    ∃ r, a.difference b (e.engine E) = .ok r ∧ Canonical (e.engine E) r ∧
      ∀ (p : P) (x : Alpha ℚ), (x : WithBot (Alpha ℚ)) ≤ grade (e.stack r.levels) p ↔
        ∃ t ∈ a.alphaDomain b, x ≤ t ∧ t.toRat ≤
          min (degree (grade (e.stack a.levels) p)) (1 - degree (grade (e.stack b.levels) p)) := by
  have hnonneg : ∀ t : Alpha ℚ, 0 ≤ 1 - t.toRat := fun t => sub_nonneg.mpr t.toRat_le_one
  have hanti : Antitone fun t : Alpha ℚ => 1 - t.toRat := fun t t' h =>
    sub_le_sub_left (Alpha.le_def.mp h) 1
  obtain ⟨r, hr, hcanonical, -, hgrade⟩ := differenceAbove_eq_ok ha hb hcompat hnonneg hanti
  refine ⟨r, (difference_eq_exactDifference a b _).trans hr, hcanonical, fun p x => ?_⟩
  simp only [hgrade, le_min_iff, le_sub_comm (a := Alpha.toRat _)]

/-- **The difference is the threshold geometry at every stored alpha and rounds down between
them**: at a point it returns the greatest stored alpha up to the standard difference. -/
theorem difference_rounds_down (e : PointSetEngine G P) {a b : Fuzzyregion ℚ G}
    (ha : Canonical (e.engine E) a) (hb : Canonical (e.engine E) b) (hcompat : Compatible a b) :
    ∃ r, a.difference b (e.engine E) = .ok r ∧
      (∀ l ∈ a.levels ++ b.levels, ∀ u : AlphaThreshold ℚ, u.toRat = 1 - l.alpha.toRat → ∀ p,
        (Covers (e.engine E) (r.alphaCut (.ofAlpha l.alpha)) p ↔
          Covers (e.engine E) (a.alphaCut (.ofAlpha l.alpha)) p ∧
            ¬ Covers (e.engine E) (b.strictAlphaCut u) p)) ∧
      ∀ p, ∃ m x y z, r.membershipAt (e.engine E) p = .ok m ∧ a.mu (e.engine E) p = .ok x ∧
        b.mu (e.engine E) p = .ok y ∧ r.mu (e.engine E) p = .ok z ∧
        IsMaximum {t | (∃ l ∈ a.levels ++ b.levels, l.alpha = t) ∧ t.toRat ≤ min x (1 - y)} m ∧
        z ≤ min x (1 - y) := by
  obtain ⟨r, hr, hcanonical, hsample⟩ := exists_difference_grade_iff e ha hb hcompat
  refine ⟨r, hr, ?_, fun p => ?_⟩
  · intro l hl u hu p
    simp only [covers_iff]
    rw [hcanonical.mem_alphaCut_ofAlpha_iff_grade, hsample, ha.mem_alphaCut_ofAlpha_iff,
      hb.mem_strictAlphaCut_iff_lt_degree, hu, not_lt, le_sub_comm, ← le_min_iff]
    -- the stored alpha is itself a sample
    constructor
    · rintro ⟨t, -, hlt, htq⟩
      exact (Alpha.le_def.mp hlt).trans htq
    · intro hq
      exact ⟨l.alpha, mem_alphaDomain_iff_exists_level.mpr ⟨l, hl, rfl⟩, le_rfl, hq⟩
  · have hreach : ∀ x : Alpha ℚ, (x : WithBot (Alpha ℚ)) ≤ grade (e.stack r.levels) p ↔
        ∃ t ∈ {t : Alpha ℚ | (∃ l ∈ a.levels ++ b.levels, l.alpha = t) ∧ t.toRat ≤
          min (degree (grade (e.stack a.levels) p)) (1 - degree (grade (e.stack b.levels) p))},
          x ≤ t := by
      intro x
      rw [hsample]
      simp only [mem_alphaDomain_iff_exists_level, Set.mem_ofPred_eq, and_assoc]
      exact exists_congr fun t => and_congr_right' and_comm
    obtain ⟨m, hm, hmax⟩ := hcanonical.isMaximum_membershipAt hreach
    refine ⟨m, _, _, _, hm, ha.mu_eq p, hb.mu_eq p, hcanonical.mu_eq p, hmax, ?_⟩
    cases hg : grade (e.stack r.levels) p with
    | bot =>
      exact SetOp.difference.standard_nonneg (degree_nonneg _) (degree_nonneg _) (degree_le_one _)
    | coe x =>
      obtain ⟨t, -, hxt, htq⟩ := (hsample p x).mp hg.ge
      exact (Alpha.le_def.mp hxt).trans htq

theorem difference_rounds_down_hill_plateau :
    ∃ r, hill.difference plateau (mockEngine.engine Empty) = .ok r ∧
      ∀ p, ∃ m x y, r.membershipAt (mockEngine.engine Empty) p = .ok m ∧
        hill.mu (mockEngine.engine Empty) p = .ok x ∧
        plateau.mu (mockEngine.engine Empty) p = .ok y ∧
        IsMaximum {t | (∃ l ∈ hill.levels ++ plateau.levels, l.alpha = t) ∧
          t.toRat ≤ min x (1 - y)} m := by
  obtain ⟨r, hr, -, hmax⟩ := difference_rounds_down mockEngine.toPointSetEngine canonical_hill
    canonical_plateau compatible_hill_plateau
  refine ⟨r, hr, fun p => ?_⟩
  obtain ⟨m, x, y, z, hm, hx, hy, -, hmax, -⟩ := hmax p
  exact ⟨m, x, y, hm, hx, hy, hmax⟩

/-! ## Rounded complements -/

/-- Rounding the complement of `t` keeps it below `b` when it is below: the complement does not
pass the middle between `b` and the datum before it. -/
def HarmlessComplement (t b : Alpha F64) : Prop :=
  1 - t.toRat < b.toRat → F64.grid.BelowMiddle (1 - t.toRat) (b.value.magnitude - 1)

/-- The rounded complement. -/
theorem toRat_complement (t : Alpha F64) :
    (AlphaThreshold.complement t).toRat = (F64.ofRat false (1 - t.toRat)).toRat :=
  congrArg F64.toRat (F64.sub_one_eq t.finite)

theorem complement_lt_iff_harmless {t b : Alpha F64} :
    ((AlphaThreshold.complement t).toRat < b.toRat ↔ 1 - t.toRat < b.toRat) ↔
      HarmlessComplement t b := by
  have h0 : 0 ≤ 1 - t.toRat := sub_nonneg.mpr t.toRat_le_one
  have h1 : 1 - t.toRat ≤ 1 := sub_le_self 1 t.toRat_pos.le
  have hround : (AlphaThreshold.complement t).toRat < b.toRat ↔
      F64.grid.BelowMiddle (1 - t.toRat) (b.value.magnitude - 1) := by
    rw [toRat_complement]
    exact F64.toRat_ofRat_lt_iff h0 h1 b.toRat_pos
  have hlt : (AlphaThreshold.complement t).toRat < b.toRat → 1 - t.toRat < b.toRat := by
    rw [toRat_complement]
    exact F64.lt_of_toRat_ofRat_lt h0 h1 b.toRat_pos
  -- rounding can only lift the complement to `b`, not push it below
  rw [HarmlessComplement, ← hround]
  exact ⟨Iff.mpr, fun h => ⟨hlt, h⟩⟩

/-- The comparison with a stored alpha that the strict cut makes. -/
theorem exclusion_iff_harmless {t k : Alpha F64} :
    (Scalar.lt (Scalar.sub Scalar.one t.value) k.value = true ↔ 1 - t.toRat < k.toRat) ↔
      HarmlessComplement t k := by
  rw [← complement_lt_iff_harmless, ← AlphaThreshold.lt_value_iff]
  rfl

/-- The comparison with a degree. -/
theorem degree_le_complement_iff_harmless {t : Alpha F64} {g : WithBot (Alpha F64)} :
    (degree g ≤ (AlphaThreshold.complement t).toRat ↔ degree g ≤ 1 - t.toRat) ↔
      ∀ y : Alpha F64, g = y → HarmlessComplement t y := by
  cases g with
  | bot =>
    -- a point outside is excluded by no threshold
    refine iff_of_true (iff_of_true ?_ ?_) fun y hy => absurd hy WithBot.bot_ne_coe
    · exact (AlphaThreshold.complement t).toRat_nonneg
    · exact sub_nonneg.mpr t.toRat_le_one
  | coe y =>
    rw [degree_coe, ← not_lt, ← not_lt, not_iff_not, complement_lt_iff_harmless]
    constructor
    · intro h y' hy'
      exact WithBot.coe_injective hy' ▸ h
    · intro h
      exact h y rfl

/-- **When rounding the complement is harmless**: the difference and the one with exact complements
are the same call, and exclude the same stored alphas, exactly when no alpha of `b` catches the
rounded complement of a stored alpha. Both always return regions of one SRID, and these have the
same memberships exactly when the same holds at every point. -/
theorem difference_eq_exact_iff (e : PointSetEngine G P) {a b : Fuzzyregion F64 G}
    (ha : Canonical (e.engine E) a) (hb : Canonical (e.engine E) b) (hcompat : Compatible a b) :
    ((a.difference b (e.engine E) = a.exactDifference b (e.engine E) ∧
        ∀ l ∈ a.levels ++ b.levels, ∀ k ∈ b.levels,
          (Scalar.lt (Scalar.sub Scalar.one l.alpha.value) k.alpha.value = true ↔
            1 - l.alpha.toRat < k.alpha.toRat)) ↔
      ∀ l ∈ a.levels ++ b.levels, ∀ k ∈ b.levels, HarmlessComplement l.alpha k.alpha) ∧
    ∃ r s, a.difference b (e.engine E) = .ok r ∧ a.exactDifference b (e.engine E) = .ok s ∧
      r.srid = s.srid ∧
      ((∀ p, r.membershipAt (e.engine E) p = s.membershipAt (e.engine E) p) ↔
        ∀ l ∈ a.levels ++ b.levels, ∀ p x y, a.membershipAt (e.engine E) p = .ok (some x) →
          b.membershipAt (e.engine E) p = .ok (some y) → l.alpha ≤ x →
          HarmlessComplement l.alpha y) := by
  constructor
  · constructor
    · rintro ⟨-, h⟩ l hl k hk
      exact exclusion_iff_harmless.mp (h l hl k hk)
    · intro h
      refine ⟨?_, fun l hl k hk => exclusion_iff_harmless.mpr (h l hl k hk)⟩
      rw [difference_eq, exactDifference]
      refine differenceAbove_congr (fun t ht k hk => ?_) _
      obtain ⟨l, hl, rfl⟩ := mem_alphaDomain_iff_exists_level.mp ht
      exact complement_lt_iff_harmless.mpr (h l hl k hk)
  · have hanti : Antitone fun t : Alpha F64 => 1 - t.toRat := fun t t' h =>
      sub_le_sub_left (Alpha.le_def.mp h) 1
    have hanti' : Antitone fun t : Alpha F64 => (AlphaThreshold.complement t).toRat := fun _ _ h =>
      AlphaThreshold.complement_anti h
    obtain ⟨s, hs, hscan, hssrid, hsgrade⟩ := differenceAbove_eq_ok ha hb hcompat
      (fun t => sub_nonneg.mpr t.toRat_le_one) hanti
    obtain ⟨r, hr, hrcan, hrsrid, hrgrade⟩ := differenceAbove_eq_ok ha hb hcompat
      (fun t => (AlphaThreshold.complement t).toRat_nonneg) hanti'
    refine ⟨r, s, (difference_eq a b _).trans hr, hs, hrsrid.trans hssrid.symm, ?_⟩
    simp only [hrcan.membershipAt_eq_membershipAt_iff hscan, ha.membershipAt_eq_some_iff,
      hb.membershipAt_eq_some_iff, differenceAbove_grade_eq_iff hanti' hanti hrgrade hsgrade,
      degree_le_complement_iff_harmless]
    constructor
    · intro h l hl p x y hx hy hlx
      refine h p l.alpha (mem_alphaDomain_iff_exists_level.mpr ⟨l, hl, rfl⟩) ?_ y hy
      rw [hx, degree_coe]
      exact hlx
    · intro h p t ht hta y hy
      obtain ⟨l, hl, rfl⟩ := mem_alphaDomain_iff_exists_level.mp ht
      cases hx : grade (e.stack a.levels) p with
      | bot =>
        -- the cut of `a` reaches no alpha here
        rw [hx] at hta
        exact absurd l.alpha.toRat_pos hta.not_gt
      | coe x =>
        rw [hx] at hta
        exact h l hl p x y hx hy hta

/-- One cell at the membership `2⁻⁶⁰`, whose complement rounds to one. -/
def speck : Fuzzyregion F64 MockGeometry where
  srid := some 4326
  levels := [⟨binaryAlpha 0x3C30000000000000 (by decide), ⟨4326, {1}⟩⟩]

/-- The same cell at full membership. -/
def certainty : Fuzzyregion F64 MockGeometry where
  srid := some 4326
  levels := [⟨Alpha.one, ⟨4326, {1}⟩⟩]

theorem canonicalize_speck :
    canonicalize ⟨speck.levels⟩ (mockEngine.engine Empty) = .ok speck := by
  decide +kernel

theorem canonicalize_certainty :
    canonicalize ⟨certainty.levels⟩ (mockEngine.engine Empty) = .ok certainty := by
  decide +kernel

theorem compatible_speck_certainty : Compatible speck certainty := fun _ _ hs hs' =>
  Option.some.inj (hs.symm.trans hs')

theorem difference_eq_exact_iff_speck_certainty :
    ∃ r s, speck.difference certainty (mockEngine.engine Empty) = .ok r ∧
      speck.exactDifference certainty (mockEngine.engine Empty) = .ok s ∧ r.srid = s.srid := by
  obtain ⟨-, r, s, hr, hs, hsrid, -⟩ := difference_eq_exact_iff mockEngine.toPointSetEngine
    (canonicalize_canonical canonicalize_speck) (canonicalize_canonical canonicalize_certainty)
    compatible_speck_certainty
  exact ⟨r, s, hr, hs, hsrid⟩

/-- Nothing of `speck` should remain outside `certainty`, and all of it does: full membership does
not exceed the rounded complement. -/
theorem difference_speck_certainty :
    Canonical (mockEngine.engine Empty) speck ∧ Canonical (mockEngine.engine Empty) certainty ∧
    Compatible speck certainty ∧
    speck.difference certainty (mockEngine.engine Empty) = .ok speck ∧
    speck.exactDifference certainty (mockEngine.engine Empty) = .ok (empty (some 4326)) ∧
    ¬ ∀ l ∈ speck.levels ++ certainty.levels, ∀ k ∈ certainty.levels,
      (Scalar.lt (Scalar.sub Scalar.one l.alpha.value) k.alpha.value = true ↔
        1 - l.alpha.toRat < k.alpha.toRat) := by
  refine ⟨canonicalize_canonical canonicalize_speck,
    canonicalize_canonical canonicalize_certainty, compatible_speck_certainty, ?_, ?_, ?_⟩
  · decide +kernel
  · decide +kernel
  · decide +kernel

end Fuzzyregion

end FuzzyRegion
