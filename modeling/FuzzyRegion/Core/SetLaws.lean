import FuzzyRegion.Core.Rebuild

/-!
# The laws of the set operations

The cuts that each set operation computes form a shrinking family, so on a regularized engine a
set operation fails only on operands with different SRIDs. On a point-set engine the union and the
intersection are the pointwise maximum and minimum of the memberships. The difference samples
`min (μ a) (1 - μ b)` at the stored alphas only, and therefore falls short of it wherever its value
is the complement of a membership that is not itself a stored alpha.

## Main definitions

* `Compatible a b`: the operands carry no two different SRIDs
* `SetOp.combine`, `SetOp.cut`: the geometry of one alpha, for each set operation
* `SetOp.family`: the cuts of a set operation, as a shrinking family

## Main results

* `SetOp.run_eq_ok`: a set operation on compatible operands is rebuilt from its cuts
* `setOp_closed`: when a set operation fails
* `union_intersection_mu`, `difference_mu_iff`: the pointwise laws
-/

namespace FuzzyRegion

open Fallible LevelStack Fuzzyregion

variable {F G P E : Type} [LawfulScalar F] {e : RegularizedEngine G P} {a b : Fuzzyregion F G}

/-! ## Operands -/

/-- The operands carry no two different SRIDs. -/
def Compatible (a b : Fuzzyregion F G) : Prop :=
  ∀ s s', a.srid = some s → b.srid = some s' → s = s'

theorem ensureCompatibleSrid_eq_ok (h : Compatible a b) :
    (a.ensureCompatibleSrid b : CoreResult F E Unit) = .ok () := by
  unfold ensureCompatibleSrid
  split
  · next s s' ha hb =>
    rw [h s s' ha hb, bne_self_eq_false]
    rfl
  · rfl

theorem ensureCompatibleSrid_eq_error {s s' : Int32} (ha : a.srid = some s) (hb : b.srid = some s')
    (hne : s ≠ s') :
    (a.ensureCompatibleSrid b : CoreResult F E Unit) = .error (.mixedOperandSrid s s') := by
  unfold ensureCompatibleSrid
  rw [ha, hb]
  exact if_pos (bne_iff_ne.mpr hne)

theorem setOperation_eq_error {engine : GeometryEngine G P E}
    {combine : Alpha F → Outcome (CoreError F E) (Option G)} {s s' : Int32} (ha : a.srid = some s)
    (hb : b.srid = some s') (hne : s ≠ s') :
    a.setOperation b engine combine = .error (.error (.mixedOperandSrid s s')) := by
  rw [setOperation, ensureCompatibleSrid_eq_error ha hb hne]
  rfl

theorem or_srid_left {s : Int32} (h : a.srid = some s) :
    a.srid.or b.srid = some s := by
  rw [h, Option.some_or]

theorem Compatible.or_srid_right (hcompat : Compatible a b) {s : Int32} (h : b.srid = some s) :
    a.srid.or b.srid = some s := by
  cases ha : a.srid with
  | none => rw [Option.none_or, h]
  | some s' => rw [Option.some_or, hcompat s' s ha h]

namespace Fuzzyregion

/-- A cut, with whatever condition on its level, has the SRID of the region. -/
theorem Canonical.srid_lowest (ha : Canonical (e.engine E) a) {q : Level F G → Bool} {g : G}
    (h : (a.levels.reverse.find? q).map Level.geometry = some g) : a.srid = some (e.srid g) := by
  rw [Option.map_eq_some_iff] at h
  obtain ⟨l, hl, rfl⟩ := h
  obtain ⟨s, hs, hl⟩ := ha.sameSrid l (List.mem_reverse.mp (List.mem_of_find?_eq_some hl))
  rw [hs, Except.ok.inj hl]

theorem Canonical.srid_alphaCut (ha : Canonical (e.engine E) a) {t : AlphaThreshold F} {g : G}
    (h : a.alphaCut t = some g) : a.srid = some (e.srid g) := by
  rw [alphaCut_eq] at h
  exact ha.srid_lowest h

theorem Canonical.srid_strictAlphaCut (ha : Canonical (e.engine E) a) {t : AlphaThreshold F} {g : G}
    (h : a.strictAlphaCut t = some g) : a.srid = some (e.srid g) := by
  rw [strictAlphaCut_eq] at h
  exact ha.srid_lowest h

theorem Canonical.covered_alphaCut_subset (ha : Canonical (e.engine E) a) {t t' : AlphaThreshold F}
    (h : t.toRat ≤ t'.toRat) : e.covered (a.alphaCut t') ⊆ e.covered (a.alphaCut t) := by
  intro p hp
  obtain ⟨x, hx, ht⟩ := (ha.mem_alphaCut_iff t' p).mp hp
  exact (ha.mem_alphaCut_iff t p).mpr ⟨x, hx, h.trans ht⟩

theorem Canonical.covered_strictAlphaCut_subset (ha : Canonical (e.engine E) a)
    {t t' : AlphaThreshold F} (h : t.toRat ≤ t'.toRat) :
    e.covered (a.strictAlphaCut t') ⊆ e.covered (a.strictAlphaCut t) := by
  intro p hp
  obtain ⟨x, hx, ht⟩ := (ha.mem_strictAlphaCut_iff t' p).mp hp
  exact (ha.mem_strictAlphaCut_iff t p).mpr ⟨x, hx, h.trans_lt ht⟩

end Fuzzyregion

/-! ## Cuts of a set operation -/

namespace SetOp

/-- The set operation on sets. -/
def onSets (op : SetOp) (s t : Set P) : Set P :=
  match op with
  | .union => s ∪ t
  | .intersection => s ∩ t
  | .difference => s \ t

/-- The geometry of one alpha, from the cuts of the operands. -/
def combine (op : SetOp) (c : CrispEngine G P) (left right : Option G) : Option G :=
  match op, left, right with
  | .union, some left, some right => some (c.union left right)
  | .union, some left, none => some left
  | .union, none, right => right
  | .intersection, some left, some right => some (c.intersection left right)
  | .intersection, _, _ => none
  | .difference, some left, some right => some (c.difference left right)
  | .difference, some left, none => some left
  | .difference, none, _ => none

/-- The cut of the right operand that a set operation uses at an alpha. -/
def rightCut (op : SetOp) (b : Fuzzyregion F G) (t : Alpha F) : Option G :=
  match op with
  | .union | .intersection => b.alphaCut (.ofAlpha t)
  | .difference => b.strictAlphaCut (.complement t)

/-- The geometry of a set operation at an alpha, before normalization. -/
def cut (op : SetOp) (c : CrispEngine G P) (a b : Fuzzyregion F G) (t : Alpha F) : Option G :=
  op.combine c (a.alphaCut (.ofAlpha t)) (op.rightCut b t)

theorem run_eq (op : SetOp) (c : CrispEngine G P) (a b : Fuzzyregion F G) :
    op.run a b (c.engine E) = a.setOperation b (c.engine E) fun t => .ok (op.cut c a b t) := by
  cases op with
  | union =>
    refine congrArg (a.setOperation b (c.engine E)) (funext fun t => ?_)
    simp only [cut, rightCut]
    cases a.alphaCut (.ofAlpha t) <;> cases b.alphaCut (.ofAlpha t) <;> rfl
  | intersection =>
    refine congrArg (a.setOperation b (c.engine E)) (funext fun t => ?_)
    simp only [cut, rightCut]
    cases a.alphaCut (.ofAlpha t) <;> cases b.alphaCut (.ofAlpha t) <;> rfl
  | difference =>
    refine congrArg (a.setOperation b (c.engine E)) (funext fun t => ?_)
    -- the range check of `1 - alpha` never fails
    simp only [cut, rightCut, AlphaThreshold.tryFrom_complement, expect, ok_bind]
    cases a.alphaCut (.ofAlpha t) <;> cases b.strictAlphaCut (.complement t) <;> rfl

/-- On one SRID a set operation acts on the covered points. -/
theorem covered_combine (op : SetOp) {left right : Option G}
    (hsrid : ∀ g h, left = some g → right = some h → e.srid g = e.srid h) :
    e.covered (op.combine e.toCrispEngine left right) =
      op.onSets (e.covered left) (e.covered right) := by
  cases left with
  | none => cases op <;> simp [combine, onSets]
  | some g =>
    cases right with
    | none => cases op <;> simp [combine, onSets]
    | some h =>
      have heq := hsrid g h rfl rfl
      cases op with
      | union => simpa [combine, onSets] using e.points_union heq
      | intersection => simpa [combine, onSets] using e.points_intersection heq
      | difference => simpa [combine, onSets] using e.points_difference heq

/-- A combined geometry keeps the SRID of the cuts. -/
theorem srid_combine (op : SetOp) {left right : Option G} {srid : Option Int32}
    (hleft : ∀ g, left = some g → srid = some (e.srid g))
    (hright : ∀ g, right = some g → srid = some (e.srid g)) {g : G}
    (hg : op.combine e.toCrispEngine left right = some g) : srid = some (e.srid g) := by
  cases left with
  | none =>
    cases op with
    | union => exact hright g hg
    | intersection => simp [combine] at hg
    | difference => simp [combine] at hg
  | some left =>
    have hl := hleft left rfl
    cases right with
    | none =>
      cases op with
      | union => exact hleft g hg
      | intersection => simp [combine] at hg
      | difference => exact hleft g hg
    | some right =>
      have heq : e.srid left = e.srid right :=
        Option.some.inj (hl.symm.trans (hright right rfl))
      cases op with
      | union =>
        obtain rfl := Option.some.inj hg
        rw [hl, e.srid_union heq]
      | intersection =>
        obtain rfl := Option.some.inj hg
        rw [hl, e.srid_intersection heq]
      | difference =>
        obtain rfl := Option.some.inj hg
        rw [hl, e.srid_difference heq]

/-! ## The family of a set operation -/

theorem srid_rightCut (op : SetOp) (hb : Canonical (e.engine E) b) {t : Alpha F} {g : G}
    (h : op.rightCut b t = some g) : b.srid = some (e.srid g) := by
  cases op with
  | union => exact hb.srid_alphaCut h
  | intersection => exact hb.srid_alphaCut h
  | difference => exact hb.srid_strictAlphaCut h

theorem covered_cut (op : SetOp) (ha : Canonical (e.engine E) a) (hb : Canonical (e.engine E) b)
    (hcompat : Compatible a b) (t : Alpha F) :
    e.covered (op.cut e.toCrispEngine a b t) =
      op.onSets (e.covered (a.alphaCut (.ofAlpha t))) (e.covered (op.rightCut b t)) :=
  covered_combine op fun _ _ hg hh => hcompat _ _ (ha.srid_alphaCut hg) (srid_rightCut op hb hh)

/-- Cuts shrink with growing alpha; in a difference the left cut shrinks and the right one, at the
complement, grows. -/
theorem covered_cut_subset (op : SetOp) (ha : Canonical (e.engine E) a)
    (hb : Canonical (e.engine E) b) (hcompat : Compatible a b) {t t' : Alpha F} (h : t ≤ t') :
    e.covered (op.cut e.toCrispEngine a b t') ⊆ e.covered (op.cut e.toCrispEngine a b t) := by
  have hleft : e.covered (a.alphaCut (.ofAlpha t')) ⊆ e.covered (a.alphaCut (.ofAlpha t)) :=
    ha.covered_alphaCut_subset h
  rw [covered_cut op ha hb hcompat, covered_cut op ha hb hcompat]
  cases op with
  | union => exact Set.union_subset_union hleft (hb.covered_alphaCut_subset h)
  | intersection => exact Set.inter_subset_inter hleft (hb.covered_alphaCut_subset h)
  | difference =>
    exact Set.sdiff_subset_sdiff hleft
      (hb.covered_strictAlphaCut_subset (AlphaThreshold.complement_anti h))

/-- The cuts of a set operation on compatible operands. -/
def family (op : SetOp) (ha : Canonical (e.engine E) a) (hb : Canonical (e.engine E) b)
    (hcompat : Compatible a b) : CutFamily F e (a.srid.or b.srid) where
  cut := op.cut e.toCrispEngine a b
  srid_eq := by
    intro t g hg
    refine srid_combine op (fun left hl => ?_) (fun right hr => ?_) hg
    · exact or_srid_left (ha.srid_alphaCut hl)
    · exact hcompat.or_srid_right (srid_rightCut op hb hr)
  shrinks := covered_cut_subset op ha hb hcompat

/-- A set operation on compatible operands succeeds, and its cuts are those of the normalized
family at the stored alphas. -/
theorem run_eq_ok (op : SetOp) (ha : Canonical (e.engine E) a) (hb : Canonical (e.engine E) b)
    (hcompat : Compatible a b) :
    ∃ r, op.run a b (e.engine E) = .ok r ∧ r.srid = a.srid.or b.srid ∧
      ∀ (p : P) (x : Alpha F), (x : WithBot (Alpha F)) ≤ grade (e.stack r.levels) p ↔
        ∃ t ∈ a.alphaDomain b, x ≤ t ∧
          p ∈ e.covered ((op.cut e.toCrispEngine a b t).map e.normalizeMultipolygon) := by
  rw [run_eq]
  exact setOperation_of_family (op.family ha hb hcompat) (fun _ => rfl)
    (ensureCompatibleSrid_eq_ok hcompat)

theorem run_eq_error (op : SetOp) {engine : GeometryEngine G P E} {s s' : Int32}
    (ha : a.srid = some s) (hb : b.srid = some s') (hne : s ≠ s') :
    op.run a b engine = .error (.error (.mixedOperandSrid s s')) := by
  cases op with
  | union => exact setOperation_eq_error ha hb hne
  | intersection => exact setOperation_eq_error ha hb hne
  | difference => exact setOperation_eq_error ha hb hne

end SetOp

/-- **A set operation fails exactly on operands with different SRIDs**, and otherwise returns a
region with the first SRID of the operands, also when that region is empty. -/
theorem setOp_closed (e : RegularizedEngine G P) (op : SetOp) (ha : Canonical (e.engine E) a)
    (hb : Canonical (e.engine E) b) :
    (∀ s s', op.run a b (e.engine E) = .error (.error (.mixedOperandSrid s s')) ↔
      a.srid = some s ∧ b.srid = some s' ∧ s ≠ s') ∧
    ((¬ ∃ s s', a.srid = some s ∧ b.srid = some s' ∧ s ≠ s') →
      ∃ r, op.run a b (e.engine E) = .ok r ∧ r.srid = a.srid.or b.srid) := by
  by_cases hcompat : Compatible a b
  · -- compatible operands are rebuilt
    obtain ⟨r, hr, hsrid, -⟩ := op.run_eq_ok ha hb hcompat
    refine ⟨fun s s' => ⟨fun herr => ?_, ?_⟩, fun _ => ⟨r, hr, hsrid⟩⟩
    · cases hr.symm.trans herr
    · rintro ⟨hs, hs', hne⟩
      exact absurd (hcompat s s' hs hs') hne
  · -- others are refused before any geometry is computed
    have hdiff : ∃ s s', a.srid = some s ∧ b.srid = some s' ∧ s ≠ s' := by
      simpa [Compatible] using hcompat
    refine ⟨fun s s' => ⟨fun herr => ?_, ?_⟩, fun hno => absurd hdiff hno⟩
    · obtain ⟨u, u', hu, hu', hne⟩ := hdiff
      have h := (op.run_eq_error hu hu' hne).symm.trans herr
      simp only [Except.error.injEq, Stop.error.injEq, CoreError.mixedOperandSrid.injEq] at h
      obtain ⟨rfl, rfl⟩ := h
      exact ⟨hu, hu', hne⟩
    · rintro ⟨hs, hs', hne⟩
      exact op.run_eq_error hs hs' hne

theorem compatible_hill_plateau : Compatible hill plateau := fun _ _ hs hs' =>
  Option.some.inj (hs.symm.trans hs')

theorem setOp_closed_hill_plateau :
    ∃ r, SetOp.difference.run hill plateau (mockEngine.engine Empty) = .ok r ∧
      r.srid = some 4326 := by
  refine (setOp_closed mockEngine.toRegularizedEngine .difference canonical_hill
    canonical_plateau).2 ?_
  rintro ⟨s, s', hs, hs', hne⟩
  exact hne (compatible_hill_plateau s s' hs hs')

/-! ## The pointwise laws -/

namespace Fuzzyregion

theorem Canonical.mem_alphaCut_ofAlpha_iff (ha : Canonical (e.engine E) a) (t : Alpha F) (p : P) :
    p ∈ e.covered (a.alphaCut (.ofAlpha t)) ↔ t.toRat ≤ degree (grade (e.stack a.levels) p) := by
  rw [ha.mem_alphaCut_iff]
  cases grade (e.stack a.levels) p with
  | bot => simp [t.toRat_pos]
  | coe x => simp

theorem Canonical.mem_alphaCut_ofAlpha_iff_grade (ha : Canonical (e.engine E) a) (t : Alpha F)
    (p : P) :
    p ∈ e.covered (a.alphaCut (.ofAlpha t)) ↔ (t : WithBot (Alpha F)) ≤ grade (e.stack a.levels) p :=
  (ha.mem_alphaCut_ofAlpha_iff t p).trans coe_le_iff_toRat_le_degree.symm

theorem Canonical.mem_strictAlphaCut_iff_lt_degree (ha : Canonical (e.engine E) a)
    (t : AlphaThreshold F) (p : P) :
    p ∈ e.covered (a.strictAlphaCut t) ↔ t.toRat < degree (grade (e.stack a.levels) p) := by
  rw [ha.mem_strictAlphaCut_iff]
  cases grade (e.stack a.levels) p with
  | bot => simp [t.toRat_nonneg]
  | coe x => simp

/-- The grade of a point, when it has any, is a stored alpha. -/
theorem exists_level_of_grade_eq {v : Fuzzyregion F G} {p : P} {x : Alpha F}
    (h : grade (e.stack v.levels) p = x) : ∃ l ∈ v.levels, l.alpha = x := by
  obtain ⟨l, hl, hlabel, -⟩ := (grade_eq_coe_iff.mp h).1
  obtain ⟨k, hk, rfl⟩ := List.mem_map.mp hl
  exact ⟨k, hk, hlabel⟩

theorem exists_level_of_degree_pos {v : Fuzzyregion F G} {p : P}
    (h : 0 < degree (grade (e.stack v.levels) p)) :
    ∃ l ∈ v.levels, l.alpha.toRat = degree (grade (e.stack v.levels) p) := by
  cases hg : grade (e.stack v.levels) p with
  | bot => simp [hg] at h
  | coe x =>
    obtain ⟨l, hl, hlabel⟩ := exists_level_of_grade_eq hg
    exact ⟨l, hl, congrArg Alpha.toRat hlabel⟩

/-- A grade sampled at finitely many alphas is exact when its value is one of them. -/
theorem degree_eq_iff_of_sampled {x : WithBot (Alpha F)} {domain : List (Alpha F)} {q : ℚ}
    (hq : 0 ≤ q)
    (h : ∀ u : Alpha F, (u : WithBot (Alpha F)) ≤ x ↔ ∃ t ∈ domain, u ≤ t ∧ t.toRat ≤ q) :
    degree x = q ↔ (0 < q → ∃ t ∈ domain, t.toRat = q) := by
  constructor
  · intro hx hpos
    cases x with
    | bot => exact absurd hx hpos.ne
    | coe u =>
      -- the sample that reaches `u` is `u` itself
      obtain ⟨t, ht, hut, htq⟩ := (h u).mp le_rfl
      exact ⟨t, ht, htq.antisymm (hx ▸ hut)⟩
  · intro hsample
    rcases hq.eq_or_lt with rfl | hpos
    · -- no alpha is at most zero, so nothing is sampled
      cases x with
      | bot => rfl
      | coe u =>
        obtain ⟨t, -, -, htq⟩ := (h u).mp le_rfl
        exact absurd t.toRat_pos htq.not_gt
    · obtain ⟨t, ht, htq⟩ := hsample hpos
      have htx : (t : WithBot (Alpha F)) ≤ x := (h t).mpr ⟨t, ht, le_rfl, htq.le⟩
      refine le_antisymm ?_ (htq ▸ coe_le_iff_toRat_le_degree.mp htx)
      cases x with
      | bot => exact hq
      | coe u =>
        obtain ⟨t', -, hut', ht'q⟩ := (h u).mp le_rfl
        exact (Alpha.le_def.mp hut').trans ht'q

end Fuzzyregion

namespace SetOp

/-- The standard fuzzy set operation on memberships. -/
def standard (op : SetOp) (x y : ℚ) : ℚ :=
  match op with
  | .union => max x y
  | .intersection => min x y
  | .difference => min x (1 - y)

theorem standard_nonneg (op : SetOp) {x y : ℚ} (hx : 0 ≤ x) (hy : 0 ≤ y) (hy1 : y ≤ 1) :
    0 ≤ op.standard x y := by
  cases op with
  | union => exact hx.trans (le_max_left x y)
  | intersection => exact le_min hx hy
  | difference => exact le_min hx (sub_nonneg.mpr hy1)

/-- The maximum and the minimum of two memberships are one of them. -/
theorem standard_choice {op : SetOp} (hop : op ≠ .difference) (x y : ℚ) :
    op.standard x y = x ∨ op.standard x y = y := by
  cases op with
  | union => exact max_choice x y
  | intersection => exact min_choice x y
  | difference => exact absurd rfl hop

/-- The cut at `t` covers the points whose standard membership reaches `t`; for the difference this
needs an exact complement. -/
theorem mem_covered_cut_iff (op : SetOp) (ha : Canonical (e.engine E) a)
    (hb : Canonical (e.engine E) b) (hcompat : Compatible a b) {t : Alpha F}
    (hexact : op = .difference → (AlphaThreshold.complement t).toRat = 1 - t.toRat) (p : P) :
    p ∈ e.covered (op.cut e.toCrispEngine a b t) ↔ t.toRat ≤ op.standard
      (degree (grade (e.stack a.levels) p)) (degree (grade (e.stack b.levels) p)) := by
  rw [covered_cut op ha hb hcompat]
  cases op with
  | union =>
    rw [onSets, Set.mem_union, standard, le_max_iff, ha.mem_alphaCut_ofAlpha_iff]
    exact or_congr_right (hb.mem_alphaCut_ofAlpha_iff t p)
  | intersection =>
    rw [onSets, Set.mem_inter_iff, standard, le_min_iff, ha.mem_alphaCut_ofAlpha_iff]
    exact and_congr_right' (hb.mem_alphaCut_ofAlpha_iff t p)
  | difference =>
    rw [onSets, Set.mem_sdiff, standard, le_min_iff, ha.mem_alphaCut_ofAlpha_iff]
    -- outside the strict cut at `1 - t` the membership is at most `1 - t`
    apply and_congr_right'
    rw [rightCut, hb.mem_strictAlphaCut_iff_lt_degree, hexact rfl, not_lt]
    exact le_sub_comm

/-- On a point-set engine a set operation returns the standard membership wherever that is zero
or a stored alpha, and only there. -/
theorem run_degree_eq_iff {e : PointSetEngine G P} (op : SetOp) (ha : Canonical (e.engine E) a)
    (hb : Canonical (e.engine E) b) (hcompat : Compatible a b)
    (hexact : op = .difference → ∀ t : Alpha F,
      (AlphaThreshold.complement t).toRat = 1 - t.toRat) :
    ∃ r, op.run a b (e.engine E) = .ok r ∧ ∀ p,
      let x := degree (grade (e.stack a.levels) p)
      let y := degree (grade (e.stack b.levels) p)
      degree (grade (e.stack r.levels) p) = op.standard x y ↔
        (0 < op.standard x y → ∃ t ∈ a.alphaDomain b, t.toRat = op.standard x y) := by
  obtain ⟨r, hr, -, hgrade⟩ := op.run_eq_ok ha hb hcompat
  refine ⟨r, hr, fun p => ?_⟩
  refine degree_eq_iff_of_sampled
    (op.standard_nonneg (degree_nonneg _) (degree_nonneg _) (degree_le_one _)) fun u => ?_
  rw [hgrade]
  refine exists_congr fun t => and_congr_right' (and_congr_right' ?_)
  rw [e.covered_map_normalize]
  exact op.mem_covered_cut_iff ha hb hcompat (fun h => hexact h t) p

theorem exists_mem_alphaDomain {p : P} :
    (0 < degree (grade (e.stack a.levels) p) →
      ∃ t ∈ a.alphaDomain b, t.toRat = degree (grade (e.stack a.levels) p)) ∧
    (0 < degree (grade (e.stack b.levels) p) →
      ∃ t ∈ a.alphaDomain b, t.toRat = degree (grade (e.stack b.levels) p)) := by
  constructor
  · intro h
    obtain ⟨l, hl, halpha⟩ := exists_level_of_degree_pos h
    exact ⟨l.alpha, mem_alphaDomain_iff.mpr (Or.inl ⟨l, hl, rfl⟩), halpha⟩
  · intro h
    obtain ⟨l, hl, halpha⟩ := exists_level_of_degree_pos h
    exact ⟨l.alpha, mem_alphaDomain_iff.mpr (Or.inr ⟨l, hl, rfl⟩), halpha⟩

/-- The standard membership is that of an operand, hence a stored alpha: sampling loses nothing. -/
theorem run_mu {e : PointSetEngine G P} (op : SetOp) (hop : op ≠ .difference)
    (ha : Canonical (e.engine E) a) (hb : Canonical (e.engine E) b) (hcompat : Compatible a b) :
    ∃ r, op.run a b (e.engine E) = .ok r ∧ ∀ p, ∃ x y, a.mu (e.engine E) p = .ok x ∧
      b.mu (e.engine E) p = .ok y ∧ r.mu (e.engine E) p = .ok (op.standard x y) := by
  obtain ⟨r, hr, hdegree⟩ := op.run_degree_eq_iff ha hb hcompat fun h => absurd h hop
  refine ⟨r, hr, fun p => ⟨_, _, ha.mu_eq p, hb.mu_eq p, ?_⟩⟩
  rw [(setOp_canonical hr).mu_eq]
  refine congrArg Except.ok ((hdegree p).mpr ?_)
  intro hpos
  obtain ⟨hleft, hright⟩ := exists_mem_alphaDomain (e := e.toRegularizedEngine) (a := a) (b := b)
    (p := p)
  rcases standard_choice hop (degree (grade (e.stack a.levels) p))
    (degree (grade (e.stack b.levels) p)) with h | h
  · rw [h] at hpos ⊢
    exact hleft hpos
  · rw [h] at hpos ⊢
    exact hright hpos

end SetOp

/-- **The union is the pointwise maximum and the intersection the pointwise minimum.** -/
theorem union_intersection_mu (e : PointSetEngine G P) (ha : Canonical (e.engine E) a)
    (hb : Canonical (e.engine E) b) (hcompat : Compatible a b) :
    (∃ r, a.union b (e.engine E) = .ok r ∧ ∀ p, ∃ x y, a.mu (e.engine E) p = .ok x ∧
      b.mu (e.engine E) p = .ok y ∧ r.mu (e.engine E) p = .ok (max x y)) ∧
    (∃ r, a.intersection b (e.engine E) = .ok r ∧ ∀ p, ∃ x y, a.mu (e.engine E) p = .ok x ∧
      b.mu (e.engine E) p = .ok y ∧ r.mu (e.engine E) p = .ok (min x y)) :=
  ⟨SetOp.run_mu .union (by simp) ha hb hcompat, SetOp.run_mu .intersection (by simp) ha hb hcompat⟩

theorem union_intersection_mu_hill_plateau :
    (∃ r, hill.union plateau (mockEngine.engine Empty) = .ok r ∧ ∀ p, ∃ x y,
      hill.mu (mockEngine.engine Empty) p = .ok x ∧
      plateau.mu (mockEngine.engine Empty) p = .ok y ∧
      r.mu (mockEngine.engine Empty) p = .ok (max x y)) ∧
    (∃ r, hill.intersection plateau (mockEngine.engine Empty) = .ok r ∧ ∀ p, ∃ x y,
      hill.mu (mockEngine.engine Empty) p = .ok x ∧
      plateau.mu (mockEngine.engine Empty) p = .ok y ∧
      r.mu (mockEngine.engine Empty) p = .ok (min x y)) :=
  union_intersection_mu mockEngine.toPointSetEngine canonical_hill canonical_plateau
    compatible_hill_plateau

/-- **The difference returns the standard membership exactly where its value is sampled.** Where
the complement of `b` is positive and below `a`, it has to be a stored alpha. -/
theorem difference_mu_iff (e : PointSetEngine G P) {a b : Fuzzyregion ℚ G}
    (ha : Canonical (e.engine E) a) (hb : Canonical (e.engine E) b) (hcompat : Compatible a b) :
    ∃ r, a.difference b (e.engine E) = .ok r ∧ ∀ p, ∃ x y z, a.mu (e.engine E) p = .ok x ∧
      b.mu (e.engine E) p = .ok y ∧ r.mu (e.engine E) p = .ok z ∧
      (z = min x (1 - y) ↔
        (0 < 1 - y → 1 - y < x → ∃ l ∈ a.levels ++ b.levels, l.alpha.toRat = 1 - y)) := by
  have hexact : SetOp.difference = .difference → ∀ t : Alpha ℚ,
      (AlphaThreshold.complement t).toRat = 1 - t.toRat := fun _ _ => rfl
  obtain ⟨r, hr, hdegree⟩ := SetOp.run_degree_eq_iff .difference ha hb hcompat hexact
  have hr' : Canonical (e.engine E) r := setOp_canonical hr
  refine ⟨r, hr, fun p => ⟨_, _, _, ha.mu_eq p, hb.mu_eq p, hr'.mu_eq p, (hdegree p).trans ?_⟩⟩
  set x := degree (grade (e.stack a.levels) p) with hx
  set y := degree (grade (e.stack b.levels) p) with hy
  change (0 < min x (1 - y) → ∃ t ∈ a.alphaDomain b, t.toRat = min x (1 - y)) ↔ _
  constructor
  · intro hsample hpos hlt
    rw [min_eq_right hlt.le] at hsample
    obtain ⟨t, ht, htq⟩ := hsample hpos
    obtain ⟨l, hl, rfl⟩ := mem_alphaDomain_iff_exists_level.mp ht
    exact ⟨l, hl, htq⟩
  · intro hstored hpos
    obtain ⟨hxpos, hypos⟩ := lt_min_iff.mp hpos
    rcases le_or_gt x (1 - y) with hle | hlt
    · -- the value of `a` is a stored alpha in any case
      rw [min_eq_left hle]
      exact SetOp.exists_mem_alphaDomain.1 hxpos
    · rw [min_eq_right hlt.le]
      obtain ⟨l, hl, hlq⟩ := hstored hypos hlt
      exact ⟨l.alpha, mem_alphaDomain_iff_exists_level.mpr ⟨l, hl, rfl⟩, hlq⟩

theorem difference_mu_iff_hill_plateau :
    ∃ r, hill.difference plateau (mockEngine.engine Empty) = .ok r ∧ ∀ p, ∃ x y z,
      hill.mu (mockEngine.engine Empty) p = .ok x ∧
      plateau.mu (mockEngine.engine Empty) p = .ok y ∧
      r.mu (mockEngine.engine Empty) p = .ok z ∧
      (z = min x (1 - y) ↔
        (0 < 1 - y → 1 - y < x → ∃ l ∈ hill.levels ++ plateau.levels, l.alpha.toRat = 1 - y)) :=
  difference_mu_iff mockEngine.toPointSetEngine canonical_hill canonical_plateau
    compatible_hill_plateau

/-- A single cell of full membership. -/
def peak : Fuzzyregion ℚ MockGeometry where
  srid := some 4326
  levels := [⟨Alpha.one, ⟨4326, {1}⟩⟩]

/-- The same cell at a membership whose complement is not stored. -/
def mist : Fuzzyregion ℚ MockGeometry where
  srid := some 4326
  levels := [⟨exactAlpha (3 / 10) (by norm_num), ⟨4326, {1}⟩⟩]

/-- `peak` without `mist` should have membership `7 / 10`, and has `3 / 10`. -/
theorem difference_peak_mist :
    Canonical (mockEngine.engine Empty) peak ∧ Canonical (mockEngine.engine Empty) mist ∧
    Compatible peak mist ∧
    ¬ ∃ r, peak.difference mist (mockEngine.engine Empty) = .ok r ∧ ∀ p, ∃ x y,
      peak.mu (mockEngine.engine Empty) p = .ok x ∧
      mist.mu (mockEngine.engine Empty) p = .ok y ∧
      r.mu (mockEngine.engine Empty) p = .ok (min x (1 - y)) := by
  have hpeak : canonicalize ⟨peak.levels⟩ (mockEngine.engine Empty) = .ok peak := by
    decide +kernel
  have hmist : canonicalize ⟨mist.levels⟩ (mockEngine.engine Empty) = .ok mist := by
    decide +kernel
  refine ⟨canonicalize_canonical hpeak, canonicalize_canonical hmist,
    fun _ _ hs hs' => Option.some.inj (hs.symm.trans hs'), ?_⟩
  rintro ⟨r, hr, hlaw⟩
  -- the domain is `1` and `3 / 10`; the cell is removed at `1` and kept at `3 / 10`
  have hdiff : peak.difference mist (mockEngine.engine Empty) = .ok mist := by
    decide +kernel
  obtain rfl : mist = r := Except.ok.inj (hdiff.symm.trans hr)
  obtain ⟨x, y, hx, hy, hz⟩ := hlaw 1
  have hx1 : peak.mu (mockEngine.engine Empty) 1 = .ok 1 := by decide +kernel
  have hy1 : mist.mu (mockEngine.engine Empty) 1 = .ok (3 / 10) := by decide +kernel
  obtain rfl : 1 = x := Except.ok.inj (hx1.symm.trans hx)
  obtain rfl : 3 / 10 = y := Except.ok.inj (hy1.symm.trans hy)
  have hval : (3 / 10 : ℚ) = min 1 (1 - 3 / 10) := Except.ok.inj (hy1.symm.trans hz)
  norm_num at hval

end FuzzyRegion
