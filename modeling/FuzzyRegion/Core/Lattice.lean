import FuzzyRegion.Core.Meaning
import FuzzyRegion.Core.SetLaws
import Mathlib.Order.Lattice

/-!
# The lattice of canonical regions

On an extensional engine the canonical regions of one SRID form a distributive lattice with the
empty region at the bottom: a region is determined by its grades, and the union and the
intersection are the pointwise maximum and minimum of the grades. The two sides of a lattice law
sample different alphas and collapse different levels, and still return one value.

## Main definitions

* `CanonicalRegion`: a canonical region of a given SRID
* `ReturnsSame`: two calls return the same value
* `LatticeLaws`: the lattice laws, as equalities of returned values

## Main results

* `union_grade`, `intersection_grade`: the grades of a union and of an intersection
* `CanonicalRegion.union_eq`, `CanonicalRegion.intersection_eq`: the calls compute the lattice
  operations
* `lattice_laws`: the laws hold of every three canonical regions of one SRID
-/

namespace FuzzyRegion

open Fallible LevelStack Fuzzyregion

variable {F G P E : Type} [LawfulScalar F]

/-! ## Grades of unions and intersections -/

section Grades

variable {e : PointSetEngine G P} {a b : Fuzzyregion F G}

/-- A set operation whose cuts are those of a function that only takes stored alphas has this
function as its grades. -/
theorem SetOp.run_grade (op : SetOp) (ha : Canonical (e.engine E) a)
    (hb : Canonical (e.engine E) b) (hcompat : Compatible a b) {f : P → WithBot (Alpha F)}
    (hcut : ∀ (t : Alpha F) p,
      p ∈ e.covered (op.cut e.toCrispEngine a b t) ↔ (t : WithBot (Alpha F)) ≤ f p)
    (hstored : ∀ p, f p = grade (e.stack a.levels) p ∨ f p = grade (e.stack b.levels) p) :
    ∃ r, op.run a b (e.engine E) = .ok r ∧ r.srid = a.srid.or b.srid ∧
      ∀ p, grade (e.stack r.levels) p = f p := by
  obtain ⟨r, hr, hsrid, hgrade⟩ := op.run_eq_ok ha hb hcompat
  refine ⟨r, hr, hsrid, fun p => eq_of_coe_le_iff fun x => ?_⟩
  rw [hgrade]
  simp only [e.covered_map_normalize, hcut]
  constructor
  · rintro ⟨t, -, hxt, htf⟩
    exact (WithBot.coe_le_coe.mpr hxt).trans htf
  · intro hxf
    -- the value of `f` is itself one of the sampled alphas
    obtain ⟨y, hy, hxy⟩ := WithBot.coe_le_iff.mp hxf
    refine ⟨y, mem_alphaDomain_iff.mpr ?_, hxy, hy.ge⟩
    rcases hstored p with h | h
    · exact Or.inl (exists_level_of_grade_eq (h.symm.trans hy))
    · exact Or.inr (exists_level_of_grade_eq (h.symm.trans hy))

/-- The grades of a union are the greater ones of its operands. -/
theorem union_grade (ha : Canonical (e.engine E) a) (hb : Canonical (e.engine E) b)
    (hcompat : Compatible a b) :
    ∃ r, a.union b (e.engine E) = .ok r ∧ r.srid = a.srid.or b.srid ∧
      ∀ p, grade (e.stack r.levels) p =
        grade (e.stack a.levels) p ⊔ grade (e.stack b.levels) p := by
  apply SetOp.union.run_grade ha hb hcompat
  · intro t p
    rw [SetOp.covered_cut .union ha hb hcompat, SetOp.onSets, Set.mem_union, le_sup_iff,
      ha.mem_alphaCut_ofAlpha_iff_grade]
    exact or_congr_right (hb.mem_alphaCut_ofAlpha_iff_grade t p)
  · exact fun p => max_choice _ _

/-- The grades of an intersection are the smaller ones of its operands. -/
theorem intersection_grade (ha : Canonical (e.engine E) a) (hb : Canonical (e.engine E) b)
    (hcompat : Compatible a b) :
    ∃ r, a.intersection b (e.engine E) = .ok r ∧ r.srid = a.srid.or b.srid ∧
      ∀ p, grade (e.stack r.levels) p =
        grade (e.stack a.levels) p ⊓ grade (e.stack b.levels) p := by
  apply SetOp.intersection.run_grade ha hb hcompat
  · intro t p
    rw [SetOp.covered_cut .intersection ha hb hcompat, SetOp.onSets, Set.mem_inter_iff, le_inf_iff,
      ha.mem_alphaCut_ofAlpha_iff_grade]
    exact and_congr_right' (hb.mem_alphaCut_ofAlpha_iff_grade t p)
  · exact fun p => min_choice _ _

end Grades

/-! ## The lattice -/

/-- A canonical region of a given SRID. -/
structure CanonicalRegion (F E : Type) [LawfulScalar F] (e : ExtensionalEngine G P)
    (srid : Option Int32) where
  region : Fuzzyregion F G
  canonical : Canonical (e.engine E) region
  srid_eq : region.srid = srid

namespace CanonicalRegion

variable {e : ExtensionalEngine G P} {srid : Option Int32}

/-- The grades of a region. -/
noncomputable def grades (a : CanonicalRegion F E e srid) : P → WithBot (Alpha F) :=
  grade (e.stack a.region.levels)

theorem grades_injective :
    Function.Injective (grades : CanonicalRegion F E e srid → P → WithBot (Alpha F)) := by
  intro a b h
  have heq : a.region = b.region := a.canonical.eq_of_grade_eq b.canonical
    (a.srid_eq.trans b.srid_eq.symm) (congrFun h)
  cases a
  cases b
  congr

theorem compatible (a b : CanonicalRegion F E e srid) : Compatible a.region b.region := by
  intro s s' hs hs'
  exact Option.some.inj (hs.symm.trans ((a.srid_eq.trans b.srid_eq.symm).trans hs'))

theorem srid_or (a b : CanonicalRegion F E e srid) : a.region.srid.or b.region.srid = srid := by
  rw [a.srid_eq, b.srid_eq, Option.or_self]

theorem exists_union (a b : CanonicalRegion F E e srid) : ∃ r : CanonicalRegion F E e srid,
    a.region.union b.region (e.engine E) = .ok r.region ∧ r.grades = a.grades ⊔ b.grades := by
  obtain ⟨r, hr, hsrid, hgrade⟩ := union_grade a.canonical b.canonical (a.compatible b)
  exact ⟨⟨r, setOperation_canonical hr, hsrid.trans (a.srid_or b)⟩, hr, funext hgrade⟩

theorem exists_intersection (a b : CanonicalRegion F E e srid) :
    ∃ r : CanonicalRegion F E e srid, a.region.intersection b.region (e.engine E) = .ok r.region ∧
      r.grades = a.grades ⊓ b.grades := by
  obtain ⟨r, hr, hsrid, hgrade⟩ := intersection_grade a.canonical b.canonical (a.compatible b)
  exact ⟨⟨r, setOperation_canonical hr, hsrid.trans (a.srid_or b)⟩, hr,
    funext hgrade⟩

noncomputable instance : Max (CanonicalRegion F E e srid) where
  max a b := (a.exists_union b).choose

noncomputable instance : Min (CanonicalRegion F E e srid) where
  min a b := (a.exists_intersection b).choose

instance : LE (CanonicalRegion F E e srid) := ⟨fun a b => a.grades ≤ b.grades⟩

instance : LT (CanonicalRegion F E e srid) := ⟨fun a b => a.grades < b.grades⟩

/-- The union of the source computes the join. -/
theorem union_eq (a b : CanonicalRegion F E e srid) :
    a.region.union b.region (e.engine E) = .ok (a ⊔ b).region := (a.exists_union b).choose_spec.1

/-- The intersection of the source computes the meet. -/
theorem intersection_eq (a b : CanonicalRegion F E e srid) :
    a.region.intersection b.region (e.engine E) = .ok (a ⊓ b).region :=
  (a.exists_intersection b).choose_spec.1

/-- The canonical regions of one SRID, ordered by their grades. -/
noncomputable instance : DistribLattice (CanonicalRegion F E e srid) :=
  grades_injective.distribLattice grades Iff.rfl Iff.rfl
    (fun a b => (a.exists_union b).choose_spec.2)
    (fun a b => (a.exists_intersection b).choose_spec.2)

/-- The empty region with the SRID. -/
instance : OrderBot (CanonicalRegion F E e srid) where
  bot := ⟨empty srid, canonical_empty _ _, rfl⟩
  bot_le _ _ := bot_le

end CanonicalRegion

/-! ## The laws -/

/-- Both calls return, and the same value. -/
def ReturnsSame {ε α : Type} (left right : Outcome ε α) : Prop :=
  ∃ r, left = .ok r ∧ right = .ok r

/-- The lattice laws of union and intersection, as equalities of returned values. -/
structure LatticeLaws (engine : GeometryEngine G P E) (srid : Option Int32)
    (a b c : Fuzzyregion F G) : Prop where
  union_comm : ReturnsSame (a.union b engine) (b.union a engine)
  intersection_comm : ReturnsSame (a.intersection b engine) (b.intersection a engine)
  union_assoc : ReturnsSame
    (do let ab ← a.union b engine
        ab.union c engine)
    (do let bc ← b.union c engine
        a.union bc engine)
  intersection_assoc : ReturnsSame
    (do let ab ← a.intersection b engine
        ab.intersection c engine)
    (do let bc ← b.intersection c engine
        a.intersection bc engine)
  union_self : a.union a engine = .ok a
  intersection_self : a.intersection a engine = .ok a
  union_absorbs :
    (do let ab ← a.intersection b engine
        a.union ab engine) = .ok a
  intersection_absorbs :
    (do let ab ← a.union b engine
        a.intersection ab engine) = .ok a
  union_distributes : ReturnsSame
    (do let bc ← b.intersection c engine
        a.union bc engine)
    (do let ab ← a.union b engine
        let ac ← a.union c engine
        ab.intersection ac engine)
  intersection_distributes : ReturnsSame
    (do let bc ← b.union c engine
        a.intersection bc engine)
    (do let ab ← a.intersection b engine
        let ac ← a.intersection c engine
        ab.union ac engine)
  union_empty : a.union (empty srid) engine = .ok a
  empty_union : (empty srid : Fuzzyregion F G).union a engine = .ok a
  intersection_empty : a.intersection (empty srid) engine = .ok (empty srid)
  empty_intersection : (empty srid : Fuzzyregion F G).intersection a engine = .ok (empty srid)

namespace CanonicalRegion

variable {e : ExtensionalEngine G P} {srid : Option Int32}

/-- The laws of the distributive lattice, read off its operations as the source computes them. -/
theorem latticeLaws (x y z : CanonicalRegion F E e srid) :
    LatticeLaws (e.engine E) srid x.region y.region z.region where
  union_comm := ⟨_, union_eq x y, sup_comm x y ▸ union_eq y x⟩
  intersection_comm := ⟨_, intersection_eq x y, inf_comm x y ▸ intersection_eq y x⟩
  union_assoc := by
    refine ⟨(x ⊔ y ⊔ z).region, ?_, ?_⟩
    · rw [union_eq, ok_bind, union_eq]
    · rw [union_eq, ok_bind, union_eq, sup_assoc]
  intersection_assoc := by
    refine ⟨(x ⊓ y ⊓ z).region, ?_, ?_⟩
    · rw [intersection_eq, ok_bind, intersection_eq]
    · rw [intersection_eq, ok_bind, intersection_eq, inf_assoc]
  union_self := by rw [union_eq, sup_idem]
  intersection_self := by rw [intersection_eq, inf_idem]
  union_absorbs := by rw [intersection_eq, ok_bind, union_eq, sup_inf_self]
  intersection_absorbs := by rw [union_eq, ok_bind, intersection_eq, inf_sup_self]
  union_distributes := by
    refine ⟨(x ⊔ y ⊓ z).region, ?_, ?_⟩
    · rw [intersection_eq, ok_bind, union_eq]
    · rw [union_eq, ok_bind, union_eq, ok_bind, intersection_eq, sup_inf_left]
  intersection_distributes := by
    refine ⟨(x ⊓ (y ⊔ z)).region, ?_, ?_⟩
    · rw [union_eq, ok_bind, intersection_eq]
    · rw [intersection_eq, ok_bind, intersection_eq, ok_bind, union_eq, inf_sup_left]
  union_empty := (union_eq x ⊥).trans (by rw [sup_bot_eq])
  empty_union := (union_eq ⊥ x).trans (by rw [bot_sup_eq])
  intersection_empty := (intersection_eq x ⊥).trans (by rw [inf_bot_eq]; rfl)
  empty_intersection := (intersection_eq ⊥ x).trans (by rw [bot_inf_eq]; rfl)

end CanonicalRegion

/-- **Canonical regions of one SRID obey the lattice laws**, as values and not only in their
memberships. -/
theorem lattice_laws (e : ExtensionalEngine G P) {srid : Option Int32} {a b c : Fuzzyregion F G}
    (ha : Canonical (e.engine E) a) (hb : Canonical (e.engine E) b) (hc : Canonical (e.engine E) c)
    (hsa : a.srid = srid) (hsb : b.srid = srid) (hsc : c.srid = srid) :
    LatticeLaws (e.engine E) srid a b c :=
  CanonicalRegion.latticeLaws ⟨a, ha, hsa⟩ ⟨b, hb, hsb⟩ ⟨c, hc, hsc⟩

theorem lattice_laws_hill_plateau :
    LatticeLaws (mockEngine.engine Empty) (some 4326) hill plateau (empty (some 4326)) :=
  lattice_laws mockEngine canonical_hill canonical_plateau (canonical_empty _ _) rfl rfl rfl

end FuzzyRegion
