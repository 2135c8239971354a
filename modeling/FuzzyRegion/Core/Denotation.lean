import FuzzyRegion.Core.Difference
import FuzzyRegion.Core.Lattice
import FuzzyRegion.Core.Pointwise
import FuzzyRegion.Core.Representation

/-!
# Operations on meanings

Every operation on regions computes an operation on their meanings, whatever geometries present
these. Union and intersection are those of fuzzy sets. The difference keeps at a point the greatest
membership in use that the left operand reaches and whose complement the right operand does not
exceed, and the membership transforms act on the memberships one by one.

## Main definitions

* `FuzzySet.difference`, `SetOp.onFuzzySets`: the set operations on fuzzy sets
* `FuzzySet.height`, `FuzzySet.normalized`, `PowerTransform.onFuzzySet`: the transforms

## Main results

* `SetOp.run_meaning`: a set operation on regions is the operation on their meanings
* `meaning_of_normalizeMembership`, `PowerTransform.meaning_of_run`: so are the transforms
* `run_respects_memberships`: compatible operands with the same memberships give the same memberships
-/

namespace FuzzyRegion

open Fallible LevelStack Fuzzyregion

variable {F G P E : Type} [LawfulScalar F]

/-- The alpha with a value, if there is one. -/
def alphaOf (value : F) : WithBot (Alpha F) :=
  match Alpha.tryFrom value with
  | .ok a => a
  | .error _ => ⊥

@[simp] theorem alphaOf_value (a : Alpha F) : alphaOf a.value = a := by
  rw [alphaOf, Alpha.tryFrom_value]

namespace FuzzySet

/-! ## The difference -/

/-- The memberships in use that `A` reaches and whose complement `B` does not exceed, as a list of
labelled sets. -/
noncomputable def differenceCuts (A B : FuzzySet (Alpha F) P) : List (Alpha F × Set P) :=
  (A.finite_union B).toFinset.toList.map fun t =>
    (t, {p | (t : WithBot (Alpha F)) ≤ A.grade p ∧
      degree (B.grade p) ≤ (AlphaThreshold.complement t).toRat})

/-- The difference, sampled at the memberships in use. -/
noncomputable def difference (A B : FuzzySet (Alpha F) P) : FuzzySet (Alpha F) P :=
  .ofStack (differenceCuts A B)

theorem coe_le_difference_iff {A B : FuzzySet (Alpha F) P} {p : P} {x : Alpha F} :
    (x : WithBot (Alpha F)) ≤ (difference A B).grade p ↔
      ∃ t ∈ A.values ∪ B.values, x ≤ t ∧ (t : WithBot (Alpha F)) ≤ A.grade p ∧
        degree (B.grade p) ≤ (AlphaThreshold.complement t).toRat := by
  rw [difference, FuzzySet.ofStack_grade, coe_le_grade_iff, differenceCuts]
  simp only [List.mem_map, Finset.mem_toList, Set.Finite.mem_toFinset]
  constructor
  · rintro ⟨_, ⟨t, ht, rfl⟩, hxt, hp⟩
    exact ⟨t, ht, hxt, hp⟩
  · rintro ⟨t, ht, hxt, hp⟩
    exact ⟨_, ⟨t, ht, rfl⟩, hxt, hp⟩

/-! ## The transforms -/

/-- The greatest membership in use. -/
noncomputable def height (A : FuzzySet (Alpha F) P) : WithBot (Alpha F) := A.finite.toFinset.max

/-- The memberships divided by the greatest one, unless it is one. -/
noncomputable def normalized (A : FuzzySet (Alpha F) P) : FuzzySet (Alpha F) P :=
  (height A).recBotCoe A fun max =>
    if max.isOne then A else A.map fun a => alphaOf (Scalar.div a.value max.value)

end FuzzySet

/-- What a set operation does to fuzzy sets. -/
noncomputable def SetOp.onFuzzySets (op : SetOp) (A B : FuzzySet (Alpha F) P) :
    FuzzySet (Alpha F) P :=
  match op with
  | .union => A ⊔ B
  | .intersection => A ⊓ B
  | .difference => FuzzySet.difference A B

/-- What a power transform does to a fuzzy set. -/
def PowerTransform.onFuzzySet (t : PowerTransform) (powf : F → F → F) (power : F)
    (A : FuzzySet (Alpha F) P) : FuzzySet (Alpha F) P :=
  A.map fun a => alphaOf (powf a.value (t.exponent power))

/-! ## Set operations -/

section

variable {e : PointSetEngine G P} {a b v r : Fuzzyregion F G}

theorem mem_alphaDomain_iff_values (ha : Canonical (e.engine E) a) (hb : Canonical (e.engine E) b)
    {t : Alpha F} : t ∈ a.alphaDomain b ↔
      t ∈ (a.meaning e.toRegularizedEngine).values ∪ (b.meaning e.toRegularizedEngine).values := by
  rw [mem_alphaDomain_iff, Set.mem_union, ha.mem_values_iff, hb.mem_values_iff, List.mem_map,
    List.mem_map]

/-- The source's difference computes the sampled difference of the meanings. -/
theorem difference_meaning (ha : Canonical (e.engine E) a) (hb : Canonical (e.engine E) b)
    (hcompat : Compatible a b) :
    ∃ r, a.difference b (e.engine E) = .ok r ∧ r.srid = a.srid.or b.srid ∧
      r.meaning e.toRegularizedEngine =
        FuzzySet.difference (a.meaning e.toRegularizedEngine)
          (b.meaning e.toRegularizedEngine) := by
  have hanti : Antitone fun t : Alpha F => (AlphaThreshold.complement t).toRat :=
    fun _ _ h => AlphaThreshold.complement_anti h
  obtain ⟨r, hr, -, hsrid, hgrade⟩ := differenceAbove_eq_ok ha hb hcompat
    (fun t => (AlphaThreshold.complement t).toRat_nonneg) hanti
  refine ⟨r, (difference_eq a b (e.engine E)).trans hr, hsrid, ?_⟩
  -- both sides reach `x` when some membership in use does
  refine FuzzySet.ext (funext fun p => eq_of_coe_le_iff fun x => ?_)
  rw [meaning_grade, hgrade, FuzzySet.coe_le_difference_iff]
  refine exists_congr fun t => ?_
  rw [mem_alphaDomain_iff_values ha hb, coe_le_iff_toRat_le_degree, meaning_grade, meaning_grade]

/-- **A set operation on canonical regions computes the operation on their meanings.** -/
theorem SetOp.run_meaning (op : SetOp) (ha : Canonical (e.engine E) a)
    (hb : Canonical (e.engine E) b) (hcompat : Compatible a b) :
    ∃ r, op.run a b (e.engine E) = .ok r ∧ r.srid = a.srid.or b.srid ∧
      r.meaning e.toRegularizedEngine = op.onFuzzySets (a.meaning e.toRegularizedEngine)
        (b.meaning e.toRegularizedEngine) := by
  cases op with
  | union =>
    obtain ⟨r, hr, hsrid, hgrade⟩ := union_grade ha hb hcompat
    exact ⟨r, hr, hsrid, FuzzySet.ext (funext hgrade)⟩
  | intersection =>
    obtain ⟨r, hr, hsrid, hgrade⟩ := intersection_grade ha hb hcompat
    exact ⟨r, hr, hsrid, FuzzySet.ext (funext hgrade)⟩
  | difference => exact difference_meaning ha hb hcompat

/-- **The set operations only see memberships**: two pairs of canonical operands, each with compatible
SRIDs, give results with the same memberships if their operands have the same memberships. The
geometries may differ, and so may the SRIDs of the one pair and those of the other. -/
theorem run_respects_memberships (e : PointSetEngine G P) (op : SetOp) {a a' b b' : Fuzzyregion F G}
    (ha : Canonical (e.engine E) a) (ha' : Canonical (e.engine E) a')
    (hb : Canonical (e.engine E) b) (hb' : Canonical (e.engine E) b')
    (hcompat : Compatible a b) (hcompat' : Compatible a' b')
    (hleft : ∀ p, a.membershipAt (e.engine E) p = a'.membershipAt (e.engine E) p)
    (hright : ∀ p, b.membershipAt (e.engine E) p = b'.membershipAt (e.engine E) p) :
    ∃ r r', op.run a b (e.engine E) = .ok r ∧ op.run a' b' (e.engine E) = .ok r' ∧
      ∀ p, r.membershipAt (e.engine E) p = r'.membershipAt (e.engine E) p := by
  have hmeaning : ∀ {v w : Fuzzyregion F G}, Canonical (e.engine E) v → Canonical (e.engine E) w →
      (∀ p, v.membershipAt (e.engine E) p = w.membershipAt (e.engine E) p) →
      v.meaning e.toRegularizedEngine = w.meaning e.toRegularizedEngine := fun hv hw h =>
    FuzzySet.ext (funext fun p => (hv.membershipAt_eq_membershipAt_iff hw p).mp (h p))
  obtain ⟨r, hr, -, hrm⟩ := op.run_meaning ha hb hcompat
  obtain ⟨r', hr', -, hrm'⟩ := op.run_meaning ha' hb' hcompat'
  refine ⟨r, r', hr, hr', fun p => ?_⟩
  rw [(setOp_canonical hr).membershipAt_eq_membershipAt_iff (setOp_canonical hr')]
  have heq : r.meaning e.toRegularizedEngine = r'.meaning e.toRegularizedEngine := by
    rw [hrm, hrm', hmeaning ha ha' hleft, hmeaning hb hb' hright]
  exact congrFun (congrArg FuzzySet.grade heq) p

/-- A mock region in another reference system. -/
def elsewhere (v : Fuzzyregion ℚ MockGeometry) : Fuzzyregion ℚ MockGeometry where
  srid := some 3857
  levels := v.levels.map fun l => ⟨l.alpha, ⟨3857, l.geometry.cells⟩⟩

theorem canonicalize_hill_elsewhere :
    canonicalize ⟨(elsewhere hill).levels⟩ (mockEngine.engine Empty) = .ok (elsewhere hill) := by
  decide +kernel

theorem canonicalize_plateau_elsewhere :
    canonicalize ⟨(elsewhere plateau).levels⟩ (mockEngine.engine Empty) =
      .ok (elsewhere plateau) := by
  decide +kernel

theorem run_respects_memberships_elsewhere :
    ∃ r r', SetOp.difference.run hill plateau (mockEngine.engine Empty) = .ok r ∧
      SetOp.difference.run (elsewhere hill) (elsewhere plateau) (mockEngine.engine Empty) =
        .ok r' ∧
      ∀ p, r.membershipAt (mockEngine.engine Empty) p =
        r'.membershipAt (mockEngine.engine Empty) p :=
  run_respects_memberships mockEngine.toPointSetEngine .difference canonical_hill
    (canonicalize_canonical canonicalize_hill_elsewhere) canonical_plateau
    (canonicalize_canonical canonicalize_plateau_elsewhere) compatible_hill_plateau
    (fun _ _ hs hs' => Option.some.inj (hs.symm.trans hs')) (fun _ => rfl) fun _ => rfl

end

/-! ## Transforms -/

section

variable {e : RegularizedEngine G P} {v r : Fuzzyregion F G} {ε : Type}

/-- The image of a stored alpha under a remap that returns. -/
theorem alphaOf_of_remap {remap : Alpha F → F}
    (h : v.remapMembershipValues remap = (.ok r : Outcome ε _)) {l : Level F G}
    (hl : l ∈ v.levels) : ∃ a : Alpha F, alphaOf (remap l.alpha) = a ∧ a.value = remap l.alpha := by
  obtain ⟨a, ha⟩ := exists_remapMembershipValues_iff.mp ⟨r, h⟩ l hl
  exact ⟨a, ha ▸ alphaOf_value a, ha⟩

/-- A remap whose result is canonical maps the memberships. -/
theorem meaning_of_remap {remap : Alpha F → F} (hv : Canonical (e.engine E) v)
    (h : v.remapMembershipValues remap = (.ok r : Outcome ε _)) (hr : Canonical (e.engine E) r) :
    r.meaning e = (v.meaning e).map fun a => alphaOf (remap a) := by
  -- an alpha map that agrees with the remap on the stored alphas
  let f : Alpha F → Alpha F := fun a => (alphaOf (remap a)).unbotD a
  have hf : ∀ l ∈ v.levels, alphaOf (remap l.alpha) = f l.alpha ∧
      (f l.alpha).value = remap l.alpha := by
    intro l hl
    obtain ⟨a, ha, hvalue⟩ := alphaOf_of_remap h hl
    have hfl : f l.alpha = a := by
      show (alphaOf (remap l.alpha)).unbotD l.alpha = a
      rw [ha, WithBot.unbotD_coe]
    rw [hfl]
    exact ⟨ha, hvalue⟩
  -- so the remap only renames the alphas, and a lookup finds the renamed one
  obtain rfl : v.rename f = r := Except.ok.inj
    ((remapMembershipValues_eq_rename fun l hl => (hf l hl).2).symm.trans h)
  refine FuzzySet.ext (funext fun p => ?_)
  obtain ⟨m, hm, hgrade⟩ := hv.membershipAt_eq p
  obtain ⟨k, hk, hgrade'⟩ := hr.membershipAt_eq p
  rw [membershipAt_rename, hm] at hk
  obtain rfl : m.map f = k := Except.ok.inj hk
  rw [FuzzySet.map_grade, meaning_grade, meaning_grade, hgrade', hgrade]
  cases m with
  | none => rfl
  | some a =>
    obtain ⟨l, hl, rfl⟩ := exists_level_of_grade_eq hgrade
    exact (hf l hl).1.symm

/-- The greatest membership is the maximum alpha. -/
theorem height_meaning (hv : Canonical (e.engine E) v) :
    FuzzySet.height (v.meaning e) = v.maxAlpha.elim ⊥ WithBot.some := by
  refine eq_of_coe_le_iff fun t => ?_
  have hmax : IsMaximum (v.meaning e).values v.maxAlpha := by
    rw [maxAlpha, ← List.head?_map]
    have hvalues : (v.meaning e).values = {t | t ∈ v.levels.map Level.alpha} :=
      Set.ext fun t => hv.mem_values_iff
    exact hvalues ▸ isMaximum_head? hv.pairwise_alphas
  rw [coe_le_iff_of_isMaximum hmax, FuzzySet.height, Finset.max_eq_sup_withBot,
    Finset.le_sup_iff (WithBot.bot_lt_coe t)]
  simp only [Set.Finite.mem_toFinset, WithBot.coe_le_coe]
  rfl

/-- **Normalization normalizes the meaning**, when its result is canonical. -/
theorem meaning_of_normalizeMembership (hv : Canonical (e.engine E) v)
    (h : v.normalizeMembership = (.ok r : Outcome ε _)) (hr : Canonical (e.engine E) r) :
    r.meaning e = FuzzySet.normalized (v.meaning e) := by
  rw [FuzzySet.normalized, height_meaning hv]
  unfold normalizeMembership at h
  cases hmax : v.maxAlpha with
  | none =>
    -- without levels the region is returned as it is
    rw [hmax] at h
    obtain rfl : v = r := Except.ok.inj h
    rfl
  | some max =>
    rw [hmax] at h
    dsimp only at h
    split_ifs at h with hone
    · obtain rfl : v = r := Except.ok.inj h
      exact (if_pos hone).symm
    · exact (meaning_of_remap hv h hr).trans (if_neg hone).symm

/-- **A power transform maps the meaning**, when its result is canonical. -/
theorem PowerTransform.meaning_of_run (t : PowerTransform) {powf : F → F → F} {power : F}
    (hv : Canonical (e.engine E) v) (h : t.run powf v power = .ok r)
    (hr : Canonical (e.engine E) r) :
    r.meaning e = t.onFuzzySet powf power (v.meaning e) := by
  rw [t.run_eq] at h
  obtain ⟨-, h⟩ := check_bind_eq_ok_iff.mp h
  exact meaning_of_remap hv h hr

end

end FuzzyRegion
