import FuzzyRegion.Core.Canonicalize

/-!
# Engines whose geometries are point sets

The assumptions on a backend that give a region its meaning: a geometry denotes a set of points,
and the operations act on these sets. A canonical region is then a strict level stack, its
membership lookup computes the grade of a point, and its cuts are unions of levels.

## Main definitions

* `RegularizedEngine`: set operations on point sets, with a normalization that may shrink them
* `PointSetEngine`: the normalization keeps the point set
* `ExtensionalEngine`: a normalized geometry is determined by its points and its SRID
* `RegularizedEngine.stack`: the level stack that a level list presents
* `Fuzzyregion.mu`: the membership of a point, read as a rational number

## Main results

* `Canonical.isStrictStack`: a canonical region presents a strict stack
* `Canonical.membershipAt_eq`, `Canonical.mu_eq`: the membership lookup computes the grade
* `Canonical.mem_alphaCut_iff`, `Canonical.mem_strictAlphaCut_iff`: the points of a cut
-/

namespace FuzzyRegion

open Fallible LevelStack

variable {F G P E : Type}

/-! ## Engines -/

/-- Set operations on geometries of one SRID, with a normalization that may only shrink a point
set, as one that drops lower-dimensional parts does. -/
structure RegularizedEngine (G P : Type) extends CrispEngine G P where
  /-- The points of a geometry. -/
  points : G → Set P
  isEmpty_iff : ∀ {g}, isEmpty g = true ↔ points g = ∅
  containsPoint_iff : ∀ {g p}, containsPoint g p = true ↔ p ∈ points g
  topologicallyEquals_iff : ∀ {g h}, srid g = srid h →
    (topologicallyEquals g h = true ↔ points g = points h)
  contains_iff : ∀ {g h}, srid g = srid h → (contains g h = true ↔ points h ⊆ points g)
  points_union : ∀ {g h}, srid g = srid h → points (union g h) = points g ∪ points h
  srid_union : ∀ {g h}, srid g = srid h → srid (union g h) = srid g
  points_intersection : ∀ {g h}, srid g = srid h →
    points (intersection g h) = points g ∩ points h
  srid_intersection : ∀ {g h}, srid g = srid h → srid (intersection g h) = srid g
  points_difference : ∀ {g h}, srid g = srid h → points (difference g h) = points g \ points h
  srid_difference : ∀ {g h}, srid g = srid h → srid (difference g h) = srid g
  srid_normalize : ∀ g, srid (normalizeMultipolygon g) = srid g
  normalize_subset : ∀ g, points (normalizeMultipolygon g) ⊆ points g
  normalize_mono : ∀ {g h}, srid g = srid h → points g ⊆ points h →
    points (normalizeMultipolygon g) ⊆ points (normalizeMultipolygon h)
  normalize_idem : ∀ g, points (normalizeMultipolygon (normalizeMultipolygon g)) =
    points (normalizeMultipolygon g)

/-- An engine whose normalization keeps the point set. -/
structure PointSetEngine (G P : Type) extends RegularizedEngine G P where
  points_normalize : ∀ g, points (normalizeMultipolygon g) = points g

/-- A point-set engine where points and SRID determine the normalized geometry. -/
structure ExtensionalEngine (G P : Type) extends PointSetEngine G P where
  normalize_ext : ∀ {g h}, points g = points h → srid g = srid h →
    normalizeMultipolygon g = normalizeMultipolygon h

/-- The points covered by the geometry of a cut, if there is one. -/
def RegularizedEngine.covered (e : RegularizedEngine G P) (cut : Option G) : Set P :=
  {p | ∃ g, cut = some g ∧ p ∈ e.points g}

@[simp] theorem RegularizedEngine.covered_none (e : RegularizedEngine G P) :
    e.covered none = ∅ := by
  simp [covered]

@[simp] theorem RegularizedEngine.covered_some (e : RegularizedEngine G P) (g : G) :
    e.covered (some g) = e.points g := by
  simp [covered]

/-- A geometry is not empty when it has a point. -/
theorem RegularizedEngine.isEmpty_eq_false_iff {e : RegularizedEngine G P} {g : G} :
    e.isEmpty g = false ↔ (e.points g).Nonempty := by
  rw [Bool.eq_false_iff, ne_eq, e.isEmpty_iff, Set.nonempty_iff_ne_empty]

theorem PointSetEngine.covered_map_normalize (e : PointSetEngine G P) (cut : Option G) :
    e.covered (cut.map e.normalizeMultipolygon) = e.covered cut := by
  cases cut with
  | none => rfl
  | some g => simpa using e.points_normalize g

/-! ## The membership lookup of an engine that never errors -/

section

variable [Scalar F]

theorem Fuzzyregion.membershipIn_engine (c : CrispEngine G P) (p : P) (levels : List (Level F G)) :
    Fuzzyregion.membershipIn (c.engine E) p levels =
      .ok ((levels.find? fun l => c.containsPoint l.geometry p).map Level.alpha) := by
  induction levels with
  | nil => rfl
  | cons l levels ih =>
    rw [Fuzzyregion.membershipIn, ih, CrispEngine.engine_containsPoint, mapError_ok, ok_bind,
      List.find?_cons]
    cases c.containsPoint l.geometry p <;> rfl

end

/-! ## Stacks -/

variable [LawfulScalar F]

/-- The level stack that a level list presents. -/
def RegularizedEngine.stack (e : RegularizedEngine G P) (levels : List (Level F G)) :
    List (Alpha F × Set P) :=
  levels.map fun l => (l.alpha, e.points l.geometry)

theorem coe_le_grade_stack_iff {e : RegularizedEngine G P} {levels : List (Level F G)} {p : P}
    {t : Alpha F} : (t : WithBot (Alpha F)) ≤ grade (e.stack levels) p ↔
      ∃ l ∈ levels, t ≤ l.alpha ∧ p ∈ e.points l.geometry := by
  rw [coe_le_grade_iff]
  constructor
  · rintro ⟨l, hl, h⟩
    obtain ⟨k, hk, rfl⟩ := List.mem_map.mp hl
    exact ⟨k, hk, h⟩
  · rintro ⟨k, hk, h⟩
    exact ⟨_, List.mem_map_of_mem hk, h⟩

namespace Fuzzyregion

/-- The membership of a point as a number, zero where the lookup finds no level. -/
def mu (self : Fuzzyregion F G) (engine : GeometryEngine G P E) (p : P) : CoreResult F E ℚ :=
  (fun membership => membership.elim 0 Alpha.toRat) <$> self.membershipAt engine p

/-- The number of a grade. -/
def degree (x : WithBot (Alpha F)) : ℚ := (x.map Alpha.toRat).unbotD 0

@[simp] theorem degree_bot : degree (⊥ : WithBot (Alpha F)) = 0 := rfl

@[simp] theorem degree_coe (a : Alpha F) : degree (a : WithBot (Alpha F)) = a.toRat := rfl

theorem degree_nonneg (x : WithBot (Alpha F)) : 0 ≤ degree x := by
  cases x with
  | bot => exact le_rfl
  | coe a => exact a.toRat_pos.le

theorem degree_le_one (x : WithBot (Alpha F)) : degree x ≤ 1 := by
  cases x with
  | bot => exact zero_le_one
  | coe a => exact a.toRat_le_one

theorem coe_le_iff_toRat_le_degree {a : Alpha F} {x : WithBot (Alpha F)} :
    (a : WithBot (Alpha F)) ≤ x ↔ a.toRat ≤ degree x := by
  cases x with
  | bot => simp [a.toRat_pos]
  | coe b => rw [WithBot.coe_le_coe, Alpha.le_def, degree_coe]

variable {e : RegularizedEngine G P} {v : Fuzzyregion F G}

/-- On one SRID the collapse compares point sets. -/
theorem differs_iff {l m : Level F G} (hsrid : e.srid l.geometry = e.srid m.geometry) :
    Differs (e.engine E) l m ↔ e.points l.geometry ≠ e.points m.geometry := by
  rw [Differs, CrispEngine.engine_topologicallyEquals, Except.ok.injEq, ← Bool.not_eq_true,
    e.topologicallyEquals_iff hsrid]

theorem Canonical.srid_eq (hv : Canonical (e.engine E) v) {l m : Level F G} (hl : l ∈ v.levels)
    (hm : m ∈ v.levels) : e.srid l.geometry = e.srid m.geometry := by
  obtain ⟨s, hs, hls⟩ := hv.sameSrid l hl
  obtain ⟨s', hs', hms⟩ := hv.sameSrid m hm
  obtain rfl := Option.some.inj (hs.symm.trans hs')
  exact (Except.ok.inj hls).trans (Except.ok.inj hms).symm

theorem Canonical.points_nonempty (hv : Canonical (e.engine E) v) {l : Level F G}
    (hl : l ∈ v.levels) : (e.points l.geometry).Nonempty :=
  e.isEmpty_eq_false_iff.mp (Except.ok.inj (hv.nonEmpty l hl))

/-- A canonical region presents a strict stack. -/
theorem Canonical.isStrictStack (hv : Canonical (e.engine E) v) :
    IsStrictStack (e.stack v.levels) where
  ascending := by
    have htrans : IsTrans (Level F G) fun higher lower =>
        e.points higher.geometry ⊂ e.points lower.geometry := ⟨fun _ _ _ h h' => h.trans h'⟩
    have hchain : v.levels.IsChain fun higher lower =>
        e.points higher.geometry ⊂ e.points lower.geometry := by
      -- neighbours are nested and of different extent
      refine List.IsChain.imp_of_mem_imp ?_ (isChain_and hv.nested hv.distinct)
      intro a b ha hb ⟨hnest, hdiff⟩
      have hsrid := hv.srid_eq ha hb
      exact ssubset_of_subset_of_ne ((e.contains_iff hsrid.symm).mp (Except.ok.inj hnest))
        ((differs_iff hsrid).mp hdiff)
    rw [RegularizedEngine.stack, List.pairwise_map]
    exact List.pairwise_and_iff.mpr ⟨hv.descending, hchain.pairwise⟩
  nonempty := by
    intro l hl
    obtain ⟨m, hm, rfl⟩ := List.mem_map.mp hl
    exact hv.points_nonempty hm

/-! ## Membership -/

/-- The membership lookup returns the grade of the point. -/
theorem Canonical.membershipAt_eq (hv : Canonical (e.engine E) v) (p : P) :
    ∃ m : Option (Alpha F), v.membershipAt (e.engine E) p = .ok m ∧
      grade (e.stack v.levels) p = m.elim ⊥ WithBot.some := by
  classical
  refine ⟨_, membershipIn_engine e.toCrispEngine p v.levels, ?_⟩
  -- the scan stops at the first covering level
  have hcover : ∀ l : Level F G,
      decide (p ∈ e.points l.geometry) = e.containsPoint l.geometry p := fun l =>
    Bool.eq_iff_iff.mpr (decide_eq_true_iff.trans e.containsPoint_iff.symm)
  rw [grade_eq_of_find? hv.isStrictStack.isStack.descending, RegularizedEngine.stack,
    List.find?_map]
  simp only [Function.comp_def, hcover]
  cases v.levels.find? fun l => e.containsPoint l.geometry p <;> rfl

theorem Canonical.mu_eq (hv : Canonical (e.engine E) v) (p : P) :
    v.mu (e.engine E) p = .ok (degree (grade (e.stack v.levels) p)) := by
  obtain ⟨m, hm, hgrade⟩ := hv.membershipAt_eq p
  rw [mu, hm, hgrade]
  cases m <;> rfl

/-! ## Cuts -/

/-- A search for a property that all elements have finds the first one. -/
theorem find?_eq_head? {α : Type} {q : α → Bool} {l : List α} (h : ∀ a ∈ l, q a = true) :
    l.find? q = l.head? := by
  cases l with
  | nil => rfl
  | cons a l => rw [List.find?_cons_of_pos (h a List.mem_cons_self), List.head?_cons]

/-- A cut is the lowest level at or above the threshold, also for the threshold zero. -/
theorem alphaCut_eq (v : Fuzzyregion F G) (t : AlphaThreshold F) :
    v.alphaCut t =
      (v.levels.reverse.find? fun l => decide (t.toRat ≤ l.alpha.toRat)).map Level.geometry := by
  rw [alphaCut]
  split_ifs with hzero
  · -- the support is the last level, and every level reaches the threshold zero
    have hall : ∀ l ∈ v.levels.reverse, decide (t.toRat ≤ l.alpha.toRat) = true := fun l _ =>
      decide_eq_true ((AlphaThreshold.isZero_iff.mp hzero).trans_le l.alpha.toRat_pos.le)
    rw [find?_eq_head? hall, List.head?_reverse, support]
  · congr 2
    funext l
    exact Bool.eq_iff_iff.mpr (AlphaThreshold.le_value_iff.trans decide_eq_true_iff.symm)

/-- A strict cut is the lowest level above the threshold, also for the threshold zero. -/
theorem strictAlphaCut_eq (v : Fuzzyregion F G) (t : AlphaThreshold F) :
    v.strictAlphaCut t =
      (v.levels.reverse.find? fun l => decide (t.toRat < l.alpha.toRat)).map Level.geometry := by
  rw [strictAlphaCut]
  split_ifs with hzero
  · -- the support is the last level, and every alpha exceeds zero
    have hall : ∀ l ∈ v.levels.reverse, decide (t.toRat < l.alpha.toRat) = true := fun l _ =>
      decide_eq_true ((AlphaThreshold.isZero_iff.mp hzero).trans_lt l.alpha.toRat_pos)
    rw [find?_eq_head? hall, List.head?_reverse, support]
  · congr 2
    funext l
    exact Bool.eq_iff_iff.mpr (AlphaThreshold.lt_value_iff.trans decide_eq_true_iff.symm)

/-- A search for a property that only one element has finds the same from either end. -/
theorem find?_reverse_eq {α : Type} {q : α → Bool} {l : List α}
    (h : ∀ a ∈ l, ∀ b ∈ l, q a = true → q b = true → a = b) : l.reverse.find? q = l.find? q := by
  cases hfind : l.find? q with
  | none =>
    rw [List.find?_eq_none] at hfind ⊢
    exact fun a ha => hfind a (List.mem_reverse.mp ha)
  | some a =>
    have ha := List.mem_of_find?_eq_some hfind
    have hqa := List.find?_some hfind
    obtain ⟨b, hb⟩ := Option.isSome_iff_exists.mp
      (List.find?_isSome.mpr ⟨a, List.mem_reverse.mpr ha, hqa⟩)
    rw [hb, h a ha b (List.mem_reverse.mp (List.mem_of_find?_eq_some hb)) hqa
      (List.find?_some hb)]

/-- The core is the cut at one, where the alphas descend. -/
theorem core_eq_alphaCut
    (h : v.levels.Pairwise fun higher lower => lower.alpha < higher.alpha) :
    v.core = v.alphaCut (.ofAlpha Alpha.one) := by
  have hone : ∀ l : Level F G, decide ((AlphaThreshold.ofAlpha (Alpha.one : Alpha F)).toRat ≤
      l.alpha.toRat) = l.alpha.isOne := by
    intro l
    rw [Bool.eq_iff_iff, decide_eq_true_iff, AlphaThreshold.toRat_ofAlpha, Alpha.toRat_one,
      Alpha.isOne_iff]
  simp only [alphaCut_eq, hone, core]
  congr 1
  refine (find?_reverse_eq fun l hl m hm hlone hmone => ?_).symm
  -- two levels at one would have one alpha
  have hinj := List.inj_on_of_nodup_map (List.pairwise_map.mpr (h.imp fun hlt => hlt.ne'))
  refine hinj hl hm (Alpha.toRat_injective ?_)
  rw [Alpha.isOne_iff] at hlone hmone
  exact (l.alpha.toRat_le_one.antisymm hlone).trans (m.alpha.toRat_le_one.antisymm hmone).symm

/-- In a stack the lowest level with a property of its alpha covers what some level with the property
covers. -/
theorem mem_covered_lowest_iff {levels : List (Level F G)} (h : IsStack (e.stack levels))
    (q : Alpha F → Bool) (p : P) :
    p ∈ e.covered ((levels.reverse.find? fun l => q l.alpha).map Level.geometry) ↔
      ∃ l ∈ e.stack levels, q l.1 ∧ p ∈ l.2 := by
  rw [← h.mem_lowest_iff, RegularizedEngine.stack, ← List.map_reverse, List.find?_map]
  simp only [Function.comp_def]
  cases levels.reverse.find? fun l => q l.alpha with
  | none => simp [RegularizedEngine.covered]
  | some l => simp [RegularizedEngine.covered]

/-- A cut covers the points whose grade reaches the threshold. -/
theorem Canonical.mem_alphaCut_iff (hv : Canonical (e.engine E) v) (t : AlphaThreshold F)
    (p : P) :
    p ∈ e.covered (v.alphaCut t) ↔
      ∃ a : Alpha F, grade (e.stack v.levels) p = a ∧ t.toRat ≤ a.toRat := by
  rw [alphaCut_eq, mem_covered_lowest_iff hv.isStrictStack.isStack
    fun a => decide (t.toRat ≤ a.toRat)]
  simp only [decide_eq_true_eq]
  have hmono : ∀ {a b : Alpha F}, a ≤ b → t.toRat ≤ a.toRat → t.toRat ≤ b.toRat :=
    fun hab ht => ht.trans hab
  exact exists_covering_iff hmono

/-- A strict cut covers the points whose grade exceeds the threshold. -/
theorem Canonical.mem_strictAlphaCut_iff (hv : Canonical (e.engine E) v) (t : AlphaThreshold F)
    (p : P) :
    p ∈ e.covered (v.strictAlphaCut t) ↔
      ∃ a : Alpha F, grade (e.stack v.levels) p = a ∧ t.toRat < a.toRat := by
  rw [strictAlphaCut_eq, mem_covered_lowest_iff hv.isStrictStack.isStack
    fun a => decide (t.toRat < a.toRat)]
  simp only [decide_eq_true_eq]
  have hmono : ∀ {a b : Alpha F}, a ≤ b → t.toRat < a.toRat → t.toRat < b.toRat :=
    fun hab ht => ht.trans_le hab
  exact exists_covering_iff hmono

end Fuzzyregion

end FuzzyRegion
