import FuzzyRegion.Core.Denotation

/-!
# Growing operands

Union and intersection grow with their operands. The difference grows with its left operand and
shrinks with its right one, as long as no membership in use gets lost: its sampling can lower the
result when a larger left operand no longer has the membership at which it was taken.

## Main definitions

* `Below engine a b`: no membership of `a` exceeds that of `b`
* `SetOp.Grows`: operands between which a set operation grows

## Main results

* `SetOp.run_mono`: a set operation grows
* `difference_knoll_mist`: the difference shrinks when a membership gets lost
-/

namespace FuzzyRegion

open Fallible LevelStack Fuzzyregion

variable {F G P E : Type} [LawfulScalar F]

/-! ## Fuzzy sets -/

theorem degree_le_degree_iff {x y : WithBot (Alpha F)} : degree x ≤ degree y ↔ x ≤ y := by
  cases x with
  | bot => simp [degree_nonneg]
  | coe a => rw [degree_coe, coe_le_iff_toRat_le_degree]

namespace FuzzySet

/-- The sampled difference grows when no sample gets lost. -/
theorem difference_mono {A A' B B' : FuzzySet (Alpha F) P} (hA : A ≤ A') (hB : B' ≤ B)
    (hvalues : A.values ∪ B.values ⊆ A'.values ∪ B'.values) :
    difference A B ≤ difference A' B' := by
  intro p
  refine le_of_coe_le fun x hx => ?_
  obtain ⟨t, ht, hxt, hleft, hright⟩ := coe_le_difference_iff.mp hx
  -- the sample is still there, the left operand reaches it and the right one has not grown
  exact coe_le_difference_iff.mpr ⟨t, hvalues ht, hxt, hleft.trans (hA p),
    (degree_le_degree_iff.mpr (hB p)).trans hright⟩

end FuzzySet

/-! ## Regions -/

/-- No membership of the first region exceeds that of the second one. -/
def Below (engine : GeometryEngine G P E) (a b : Fuzzyregion F G) : Prop :=
  ∀ p x y, a.mu engine p = .ok x → b.mu engine p = .ok y → x ≤ y

/-- Operands between which a set operation grows. -/
def SetOp.Grows (op : SetOp) (engine : GeometryEngine G P E) (a b a' b' : Fuzzyregion F G) : Prop :=
  match op with
  | .union | .intersection => Below engine a a' ∧ Below engine b b'
  | .difference =>
    Below engine a a' ∧ Below engine b' b ∧ ∀ t ∈ a.alphaDomain b, t ∈ a'.alphaDomain b'

section

variable {e : PointSetEngine G P} {a b a' b' : Fuzzyregion F G}

theorem below_iff (ha : Canonical (e.engine E) a) (hb : Canonical (e.engine E) b) :
    Below (e.engine E) a b ↔ a.meaning e.toRegularizedEngine ≤ b.meaning e.toRegularizedEngine := by
  constructor
  · intro h p
    exact degree_le_degree_iff.mp (h p _ _ (ha.mu_eq p) (hb.mu_eq p))
  · intro h p x y hx hy
    obtain rfl := Except.ok.inj ((ha.mu_eq p).symm.trans hx)
    obtain rfl := Except.ok.inj ((hb.mu_eq p).symm.trans hy)
    exact degree_le_degree_iff.mpr (h p)

/-- **A set operation grows with its operands**, where each pair of operands is canonical and has
compatible SRIDs: union and intersection grow with both, and the difference with a larger left and a
smaller right operand if every membership in use is still in use. -/
theorem SetOp.run_mono (op : SetOp) (ha : Canonical (e.engine E) a) (hb : Canonical (e.engine E) b)
    (ha' : Canonical (e.engine E) a') (hb' : Canonical (e.engine E) b') (hcompat : Compatible a b)
    (hcompat' : Compatible a' b') (hgrows : op.Grows (e.engine E) a b a' b') :
    ∃ r r', op.run a b (e.engine E) = .ok r ∧ op.run a' b' (e.engine E) = .ok r' ∧
      Below (e.engine E) r r' := by
  obtain ⟨r, hr, -, hmeaning⟩ := op.run_meaning ha hb hcompat
  obtain ⟨r', hr', -, hmeaning'⟩ := op.run_meaning ha' hb' hcompat'
  refine ⟨r, r', hr, hr', ?_⟩
  rw [below_iff (setOp_canonical hr) (setOp_canonical hr'), hmeaning, hmeaning']
  cases op with
  | union =>
    obtain ⟨hleft, hright⟩ := hgrows
    exact sup_le_sup ((below_iff ha ha').mp hleft) ((below_iff hb hb').mp hright)
  | intersection =>
    obtain ⟨hleft, hright⟩ := hgrows
    exact inf_le_inf ((below_iff ha ha').mp hleft) ((below_iff hb hb').mp hright)
  | difference =>
    obtain ⟨hleft, hright, hdomain⟩ := hgrows
    refine FuzzySet.difference_mono ((below_iff ha ha').mp hleft) ((below_iff hb' hb).mp hright) ?_
    intro t ht
    rw [← mem_alphaDomain_iff_values ha' hb']
    exact hdomain t ((mem_alphaDomain_iff_values ha hb).mpr ht)

end

/-- A lower peak. -/
def knoll : Fuzzyregion ℚ MockGeometry where
  srid := some 4326
  levels := [⟨exactAlpha (7 / 10) (by norm_num), ⟨4326, {1}⟩⟩]

theorem canonicalize_knoll :
    canonicalize ⟨knoll.levels⟩ (mockEngine.engine Empty) = .ok knoll := by
  decide +kernel

/-- On the only cell `knoll` is lower. -/
theorem below_knoll_peak : Below (mockEngine.engine Empty) knoll peak := by
  intro p x y hx hy
  by_cases hp : p = 1
  · subst hp
    have hknoll : knoll.mu (mockEngine.engine Empty) 1 = .ok (7 / 10) := by decide +kernel
    have hpeak : peak.mu (mockEngine.engine Empty) 1 = .ok 1 := by decide +kernel
    obtain rfl := Except.ok.inj (hknoll.symm.trans hx)
    obtain rfl := Except.ok.inj (hpeak.symm.trans hy)
    norm_num
  · have houtside : ∀ a : Alpha ℚ, mu ⟨some 4326, [⟨a, ⟨4326, {1}⟩⟩]⟩ (mockEngine.engine Empty) p =
        .ok 0 := by
      intro a
      have hcell : (mockEngine.engine Empty).containsPoint ⟨4326, {1}⟩ p = .ok false :=
        congrArg Except.ok (decide_eq_false fun h => hp (Finset.mem_singleton.mp h))
      simp only [mu, membershipAt, membershipIn, hcell]
      rfl
    obtain rfl := Except.ok.inj ((houtside _).symm.trans hx)
    exact (Except.ok.inj ((houtside _).symm.trans hy)).le

theorem run_mono_knoll_peak : ∃ r r',
    SetOp.union.run knoll plateau (mockEngine.engine Empty) = .ok r ∧
    SetOp.union.run peak plateau (mockEngine.engine Empty) = .ok r' ∧
    Below (mockEngine.engine Empty) r r' := by
  have hpeak : canonicalize ⟨peak.levels⟩ (mockEngine.engine Empty) = .ok peak := by
    decide +kernel
  refine SetOp.union.run_mono (e := mockEngine.toPointSetEngine)
    (canonicalize_canonical canonicalize_knoll) canonical_plateau (canonicalize_canonical hpeak)
    canonical_plateau (fun _ _ hs hs' => Option.some.inj (hs.symm.trans hs'))
    (fun _ _ hs hs' => Option.some.inj (hs.symm.trans hs'))
    ⟨below_knoll_peak, fun p x y hx hy => ?_⟩
  exact (Except.ok.inj (hx.symm.trans hy)).le

/-- `knoll` is below `peak`, and without `mist` it is above: the membership at which it was sampled
is lost. -/
theorem difference_knoll_mist : Below (mockEngine.engine Empty) knoll peak ∧
    ∃ r r', knoll.difference mist (mockEngine.engine Empty) = .ok r ∧
      peak.difference mist (mockEngine.engine Empty) = .ok r' ∧
      ¬ Below (mockEngine.engine Empty) r r' := by
  have hknoll : knoll.difference mist (mockEngine.engine Empty) = .ok knoll := by decide +kernel
  have hpeak : peak.difference mist (mockEngine.engine Empty) = .ok mist := by decide +kernel
  refine ⟨below_knoll_peak, knoll, mist, hknoll, hpeak, fun h => ?_⟩
  have hx : knoll.mu (mockEngine.engine Empty) 1 = .ok (7 / 10) := by decide +kernel
  have hy : mist.mu (mockEngine.engine Empty) 1 = .ok (3 / 10) := by decide +kernel
  have hle := h 1 _ _ hx hy
  norm_num at hle

end FuzzyRegion
